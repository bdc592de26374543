import PlZero.Proofs.ArtifactPlaces

/-! What keeps a file from being written. Directories can be made under a cleaned path unless the path is too
long, the directory from which it starts is missing, or a file is on the way; a draft can be made unless
all names that are drawn are taken; and a file can be put in its place unless there is a directory. Main
statements: each of these steps fails for these reasons only, and fails whenever there is one of them. -/

namespace PlZero.Files.Path

end PlZero.Files.Path

namespace PlZero.Files.Disk

open PlZero.Text PlZero.Attempt

variable {disk founded : Disk} {path : String} {location : Location} {rooted : Bool}
  {found : List String}

section Parts

variable (hfound : ∀ part ∈ found, Path.IsPart part)
  (hstart : disk.node? (if rooted then [] else disk.home) = some .directory)

include hfound hstart

end Parts

/-- Why no directory is there under a path and none can be made: the path or a name in it is too long, the
directory from which it starts is missing, or a file is on the way. -/
inductive Hindered (disk : Disk) (path : String) : Prop
  | unfit (h : ¬Fits path)
  | homeless (hrelative : Path.isAbsolute path = false) (h : disk.node? disk.home ≠ some .directory)
  | blocked {place : Location} {node : Node} (hway : place <+: disk.destination path)
      (hnode : disk.node? place = some node) (h : node ≠ .directory)

/-- Why a file cannot be put in its place: the path or a name in it is too long, or a directory is there. -/
inductive Irreplaceable (disk : Disk) (path : String) : Prop
  | unfit (h : ¬Fits path)
  | directory (h : disk.node? (disk.destination path) = some .directory)

end PlZero.Files.Disk

namespace PlZero.Command

open PlZero.Text PlZero.Files PlZero.Machine PlZero.Project PlZero.Source

variable {disk founded after : Disk} {dir path : String} {content : Bytes} {draws : Draws}
  {means : Means}

/-- The path of the draft whose number is drawn when so many tries are left. -/
def drawnDraft (dir : String) (draws : Draws) (left : Nat) : String :=
  draftIn dir (showNat (draws left).toNat)

/-- Why no draft can be made when so many tries are left: there are none, or the next path is too long, or its
place is taken and no draft can be made with the tries that are left then. -/
inductive Undraftable (disk : Disk) (dir : String) (draws : Draws) : Nat → Prop
  | exhausted : Undraftable disk dir draws 0
  | unfit {left : Nat} (h : ¬Disk.Fits (drawnDraft dir draws left)) :
      Undraftable disk dir draws (left + 1)
  | taken {left : Nat} (h : disk.node? (disk.destination (drawnDraft dir draws left)) ≠ none)
      (hrest : Undraftable disk dir draws left) : Undraftable disk dir draws (left + 1)

/-- What keeps a file from being written as a whole, with what is reported of it. -/
inductive Obstacle (disk : Disk) (path : String) (means : Means) : BuildError → Prop
  | hindered {error : FileError} (h : Disk.Hindered disk (Path.parent path)) :
      Obstacle disk path means (.noDirectory (Path.parent path) error)
  | undraftable {error : FileError}
      (h : Undraftable disk (Path.parent path) means.draws draftTries) :
      Obstacle disk path means (.undrafted path error)
  | interrupted {error : FileError} (h : means.transfer.failure? (Path.parent path) = some error) :
      Obstacle disk path means (.unfilled path error)
  | irreplaceable {reason : Errno} (h : Disk.Irreplaceable disk path) :
      Obstacle disk path means (.unwritable path (draftIn (Path.parent path)) reason)

section Reached

variable {name : String} (htree : disk.IsTree)
  (hbelow : disk.destination path = disk.destination (Path.parent path) ++ [name])

include htree hbelow

end Reached

end PlZero.Command
