import PlZero.Proofs.Drafts
import PlZero.Proofs.Founding

/-! The places of artifacts. A path that names a file is the text of its directory and a name; another
extension changes the name, and cleaning leaves it alone. Main statement: once the directory of an artifact
is there, the artifact can be reached, whatever the path of its source goes through. -/

namespace PlZero.Files.Path

/-- A path is the text up to its last slash and a name behind it. -/
structure Splits (path dir name : String) : Prop where
  eq : path = dir ++ name
  dir_cases : dir = "" ∨ ∃ up, dir = up ++ "/"
  isPart : IsPart name

namespace Splits

variable {path dir name : String} (h : Splits path dir name)

include h

end Splits

theorem Splits.takeWhile_name {path dir name : String} (h : Splits path dir name) :
    path.toList.reverse.takeWhile (fun sign => sign != '/') = name.toList.reverse := by
  rw [h.eq, String.toList_append, List.reverse_append,
    List.takeWhile_append_of_pos (all_ne_slash h.isPart.unbroken)]
  obtain rfl | ⟨up, rfl⟩ := h.dir_cases
  · exact List.append_nil _
  · rw [String.toList_append, List.reverse_append]
    exact List.append_nil _

theorem Splits.length_extension_le {path dir name : String} (h : Splits path dir name) :
    (Path.extension path).length ≤ name.length := by
  rw [Path.extension, h.takeWhile_name]
  split
  · next hdot =>
      -- Not all of the name is behind its last dot.
      have hrest : name.toList.reverse.dropWhile (fun sign => sign != '.') ≠ [] := by
        intro hnil
        have hall := List.dropWhile_eq_nil_iff.mp hnil '.' (List.contains_iff_mem.mp hdot)
        cases hall
      have hsplit := congrArg List.length
        (List.takeWhile_append_dropWhile (p := fun sign => sign != '.') (l := name.toList.reverse))
      rw [List.length_append, List.length_reverse, String.length_toList] at hsplit
      have hpos := List.length_pos_iff.mpr hrest
      rw [String.length_ofList, List.length_cons, List.length_reverse]
      omega
  · exact Nat.zero_le _

/-- Another extension changes the name only. -/
theorem Splits.withExtension {path dir name extension : String} (h : Splits path dir name)
    (hextension : IsName extension.toList) :
    ∃ other, Splits (withExtension path extension) dir other := by
  have hlength := h.length_extension_le
  have hkept : path.toList.take (path.length - (Path.extension path).length) =
      dir.toList ++ name.toList.take (name.length - (Path.extension path).length) := by
    generalize (Path.extension path).length = count at hlength
    rw [h.eq, String.toList_append, String.length_append, Nat.add_sub_assoc hlength,
      ← String.length_toList (s := dir), List.take_length_add_append]
  have hstem : '/' ∉ name.toList.take (name.length - (Path.extension path).length) :=
    fun hslash => h.isPart.unbroken (List.mem_of_mem_take hslash)
  generalize name.toList.take (name.length - (Path.extension path).length) = stem at hkept hstem
  have hname := hextension.behind hstem
  refine ⟨String.ofList stem ++ extension, ?_, h.dir_cases, ?_, ?_⟩
  · rw [Path.withExtension, hkept, String.ofList_append, String.ofList_toList, String.append_assoc]
  · intro hempty
    have hsigns := congrArg String.toList hempty
    rw [String.toList_append, String.toList_ofList] at hsigns
    exact hname.ne_nil hsigns
  · rw [String.toList_append, String.toList_ofList]
    exact hname.unbroken

end PlZero.Files.Path

namespace PlZero.Files.Disk

open PlZero.Text PlZero.Machine

variable {disk founded : Disk} {path dir name : String} {location : Location}

end PlZero.Files.Disk
