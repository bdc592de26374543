import PlZero.Proofs.PlainPaths

/-! The manifest that holds in a directory. Main statement: the way up from any path comes to the nearest
manifest that can be looked up, or to the root if there is none, and what is loaded is fit for use, whatever
the file says and whatever reads it. -/

namespace PlZero.Project.Manifest

open PlZero.Text PlZero.Files PlZero.Attempt PlZero.Machine

/-- A manifest from a directory that can be used: what it names is known, and where its paths lead does
not depend on where a command works. -/
structure IsSound (manifest : Manifest) (dir : String) : Prop where
  format : manifest.format = "text" ∨ manifest.format = "cbor"
  verbosity : 0 ≤ manifest.verbosity
  cachePath : manifest.cachePath ≠ ""
  dir_eq : manifest.dir = dir
  fullCachePath : Path.isAbsolute manifest.fullCachePath = true
  fullOutputDir : manifest.fullOutputDir = "" ∨ Path.isAbsolute manifest.fullOutputDir = true
  fullLogFile : manifest.fullLogFile = "" ∨ Path.isAbsolute manifest.fullLogFile = true

theorem cachePath_withDefaults (manifest : Manifest) : manifest.withDefaults.cachePath ≠ "" := by
  rw [withDefaults]
  dsimp only
  split
  · decide
  · assumption

theorem valid_of_problem?_eq_none {manifest : Manifest} (h : manifest.problem? = none) :
    (manifest.format = "text" ∨ manifest.format = "cbor") ∧ 0 ≤ manifest.verbosity := by
  rw [problem?] at h
  split_ifs at h with hformat hverbosity
  rw [Bool.not_eq_true', Bool.not_eq_false, Artifact.isFormat, Bool.or_eq_true, beq_iff_eq,
    beq_iff_eq] at hformat
  exact ⟨hformat, Int.not_lt.mp hverbosity⟩

/-- A path that is not empty is absolute once it is seen from an absolute directory. -/
theorem isAbsolute_resolve {manifest : Manifest} (hdir : Path.isAbsolute manifest.dir = true)
    {path : String} (hpath : path ≠ "") : Path.isAbsolute (manifest.resolve path) = true := by
  have hsome := Path.ne_empty_of_isAbsolute hdir
  rw [resolve]
  split
  · next hleft => simpa [hpath] using hleft
  · rw [Path.join_pair hsome hpath, Path.isAbsolute_clean, Path.isAbsolute_pair hsome, hdir]

theorem resolve_cases {manifest : Manifest} (hdir : Path.isAbsolute manifest.dir = true)
    (path : String) : manifest.resolve path = "" ∨ Path.isAbsolute (manifest.resolve path) = true := by
  by_cases hpath : path = ""
  · exact .inl (by rw [resolve, hpath]; rfl)
  · exact .inr (isAbsolute_resolve hdir hpath)

section Load

variable {disk : Disk} {dir : String} {decode : Bytes → Option Manifest} {manifest : Manifest}

theorem load_eq_ok (h : load disk dir decode = .ok manifest) :
    manifest.dir = disk.absolute dir ∧ manifest.cachePath ≠ "" ∧ manifest.problem? = none := by
  rw [load.eq_def] at h
  dsimp only at h
  split at h
  · cases h
  · split at h
    · cases h
    · next parsed _ =>
        split at h
        · cases h
        · next hnone =>
            obtain rfl := Except.ok.inj h
            exact ⟨rfl, cachePath_withDefaults parsed, hnone⟩

/-- Whatever a file says, the manifest that is loaded from it is sound. -/
theorem isSound_load (h : load disk dir decode = .ok manifest) :
    manifest.IsSound (disk.absolute dir) := by
  obtain ⟨hdir, hcache, hnone⟩ := load_eq_ok h
  obtain ⟨names, -, habsolute⟩ := disk.exists_absolute dir
  have hrooted : Path.isAbsolute manifest.dir = true := by
    rw [hdir, habsolute]
    exact Path.isAbsolute_rooted names
  obtain ⟨hformat, hverbosity⟩ := valid_of_problem?_eq_none hnone
  exact ⟨hformat, hverbosity, hcache, hdir, isAbsolute_resolve hrooted hcache,
    resolve_cases hrooted manifest.outputDir, resolve_cases hrooted manifest.logFile⟩

end Load

/-! ### The way up -/

/-- The last of the numbers up to a bound that have a property. -/
structure IsLast (property : Nat → Prop) (bound count : Nat) : Prop where
  le : count ≤ bound
  has : property count
  later : ∀ other, count < other → other ≤ bound → ¬property other

theorem IsLast.succ {property : Nat → Prop} {bound count : Nat} (h : IsLast property bound count)
    (hnot : ¬property (bound + 1)) : IsLast property (bound + 1) count where
  le := Nat.le_succ_of_le h.le
  has := h.has
  later other hcount hother := by
    rcases Nat.lt_or_eq_of_le hother with hshort | rfl
    · exact h.later other hcount (Nat.le_of_lt_succ hshort)
    · exact hnot

theorem isLast_self {property : Nat → Prop} {bound : Nat} (h : property bound) :
    IsLast property bound bound :=
  ⟨Nat.le_refl bound, h, fun _ hlt hle => absurd hle (Nat.not_le.mpr hlt)⟩

theorem IsLast.congr {property other : Nat → Prop} {bound count : Nat}
    (hsame : ∀ number ≤ bound, property number ↔ other number) (h : IsLast property bound count) :
    IsLast other bound count where
  le := h.le
  has := (hsame count h.le).mp h.has
  later number hcount hnumber hhas := h.later number hcount hnumber ((hsame number hnumber).mpr hhas)

theorem IsLast.unique {property : Nat → Prop} {bound count other : Nat}
    (h : IsLast property bound count) (hother : IsLast property bound other) : count = other := by
  rcases Nat.lt_trichotomy count other with hless | hsame | hmore
  · exact absurd hother.has (h.later other hless hother.le)
  · exact hsame
  · exact absurd h.has (hother.later count hmore h.le)

/-- The directory that some of the names lead to, from the root on. -/
def above (names : List String) (count : Nat) : String :=
  Path.ofParts true (names.take count)

/-- There is a manifest, whatever it is, in the directory that some of the names lead to. -/
def HasManifest (disk : Disk) (names : List String) (count : Nat) : Prop :=
  disk.node? (names.take count ++ [fileName]) ≠ none

instance (disk : Disk) (names : List String) (count : Nat) : Decidable (HasManifest disk names count) :=
  inferInstanceAs (Decidable (disk.node? (names.take count ++ [fileName]) ≠ none))

/-- There is a manifest in the directory that some of the names lead to, under a path that can be looked up. -/
def ShowsManifest (disk : Disk) (names : List String) (count : Nat) : Prop :=
  HasManifest disk names count ∧ Disk.Fits (pathIn (above names count))

theorem above_length (names : List String) : above names names.length = Path.ofParts true names := by
  rw [above, List.take_length]

theorem isName_fileName : Path.IsName fileName.toList :=
  ⟨by decide, 'l', rfl, by decide⟩

section Names

variable {names : List String} (hnames : ∀ name ∈ names, Path.IsPlain name)

include hnames

theorem isPlain_take (count : Nat) : ∀ name ∈ names.take count, Path.IsPlain name :=
  fun name hname => hnames name (List.mem_of_mem_take hname)

theorem isPlain_fileName : ∀ name ∈ names ++ [fileName], Path.IsPlain name := by
  rw [List.forall_mem_append, List.forall_mem_singleton]
  exact ⟨hnames, ⟨by decide, by decide⟩, by decide, by decide⟩

theorem parent_above {count : Nat} (hcount : count < names.length) :
    Path.parent (above names (count + 1)) = above names count ∧
      Path.parent (above names (count + 1)) ≠ above names (count + 1) := by
  have hplain := isPlain_take hnames (count + 1)
  rw [List.take_succ_eq_append_getElem hcount] at hplain
  rw [above, List.take_succ_eq_append_getElem hcount]
  exact ⟨Path.parent_concat hplain, Path.parent_concat_ne hplain⟩

theorem pathIn_rooted : pathIn (Path.ofParts true names) = Path.ofParts true (names ++ [fileName]) := by
  have hsome := Path.ne_empty_of_isAbsolute (Path.isAbsolute_rooted names)
  rw [pathIn, Path.join_pair hsome (by decide)]
  by_cases hroot : names = []
  · rw [hroot]
    decide
  · rw [← Path.ofParts_concat true hroot, Path.clean_rooted (isPlain_fileName hnames)]

/-- A manifest is seen if and only if it is there and its path can be looked up. -/
theorem has_pathIn_iff {disk : Disk} (htree : disk.IsTree) :
    disk.has (pathIn (Path.ofParts true names)) = true ↔
      disk.node? (names ++ [fileName]) ≠ none ∧ Disk.Fits (pathIn (Path.ofParts true names)) := by
  have hplain := isPlain_fileName hnames
  have hslash : Disk.endsWithSlash (Path.ofParts true (names ++ [fileName])) = false := by
    obtain ⟨before, hbefore⟩ := Path.ofParts_append true names fileName
    exact Disk.endsWithSlash_of_isName isName_fileName hbefore
  rw [pathIn_rooted hnames, Disk.has_iff hslash, disk.destination_rooted hplain]
  constructor
  · rintro ⟨hplace, hnode⟩
    exact ⟨hnode, (Disk.place_eq_ok_iff_leads.mp hplace).1⟩
  · rintro ⟨hnode, hfits⟩
    exact ⟨htree.place_rooted hplain hnode hfits, hnode⟩

end Names

section Climb

variable {disk : Disk} {names : List String} (hnames : ∀ name ∈ names, Path.IsPlain name)
  (htree : disk.IsTree) (decode : Bytes → Option Manifest)

include hnames htree

theorem has_above_iff (count : Nat) :
    disk.has (pathIn (above names count)) = true ↔ ShowsManifest disk names count :=
  has_pathIn_iff (isPlain_take hnames count) htree

/-- The way up comes to the nearest manifest that shows, or there is none. -/
theorem climb_cases {bound : Nat} (hbound : bound ≤ names.length) :
    (∃ count, IsLast (ShowsManifest disk names) bound count ∧
      climb disk (above names bound) decode = (load disk (above names count) decode).map some) ∨
    (∀ count ≤ bound, ¬ShowsManifest disk names count) ∧
      climb disk (above names bound) decode = .ok none := by
  induction bound with
  | zero =>
      by_cases hshows : ShowsManifest disk names 0
      · refine .inl ⟨0, isLast_self hshows, ?_⟩
        rw [climb.eq_def, if_pos ((has_above_iff hnames htree 0).mpr hshows)]
      · refine .inr ⟨fun count hcount => ?_, ?_⟩
        · rwa [Nat.le_zero.mp hcount]
        · rw [climb.eq_def, if_neg (mt (has_above_iff hnames htree 0).mp hshows)]
          exact dif_pos Path.parent_root
  | succ bound ih =>
      by_cases hshows : ShowsManifest disk names (bound + 1)
      · refine .inl ⟨bound + 1, isLast_self hshows, ?_⟩
        rw [climb.eq_def, if_pos ((has_above_iff hnames htree (bound + 1)).mpr hshows)]
      · obtain ⟨hup, hdeeper⟩ := parent_above hnames hbound
        have hclimb : climb disk (above names (bound + 1)) decode =
            climb disk (above names bound) decode := by
          rw [climb.eq_def, if_neg (mt (has_above_iff hnames htree (bound + 1)).mp hshows),
            dif_neg hdeeper, hup]
        rw [hclimb]
        obtain ⟨count, hlast, hload⟩ | ⟨hnone, hend⟩ := ih (Nat.le_of_succ_le hbound)
        · exact .inl ⟨count, hlast.succ hshows, hload⟩
        · refine .inr ⟨fun count hcount => ?_, hend⟩
          rcases Nat.lt_or_eq_of_le hcount with hshort | rfl
          · exact hnone count (Nat.le_of_lt_succ hshort)
          · exact hshows

end Climb

/-- A search ends with what loading gives in the deepest directory that has a property, among the absolute path
and the directories above it, be it a manifest or an error; or with nothing, just if none of them has it.
A manifest that is found is sound. -/
structure EndsAtDeepest (disk : Disk) (start : String) (decode : Bytes → Option Manifest)
    (property : Nat → Prop) : Prop where
  result : (∃ count, IsLast property (Path.parts (disk.absolute start)).length count ∧
      find disk start decode =
        (load disk (above (Path.parts (disk.absolute start)) count) decode).map some ∧
      ∀ manifest, find disk start decode = .ok (some manifest) →
        manifest.IsSound (above (Path.parts (disk.absolute start)) count)) ∨
    (∀ count ≤ (Path.parts (disk.absolute start)).length, ¬property count) ∧
      find disk start decode = .ok none
  eq_none_iff : find disk start decode = .ok none ↔
    ∀ count ≤ (Path.parts (disk.absolute start)).length, ¬property count

theorem EndsAtDeepest.congr {disk : Disk} {start : String} {decode : Bytes → Option Manifest}
    {property other : Nat → Prop} (h : EndsAtDeepest disk start decode property)
    (hsame : ∀ number ≤ (Path.parts (disk.absolute start)).length, property number ↔ other number) :
    EndsAtDeepest disk start decode other := by
  have hnone : (∀ count ≤ (Path.parts (disk.absolute start)).length, ¬property count) ↔
      ∀ count ≤ (Path.parts (disk.absolute start)).length, ¬other count :=
    forall₂_congr fun count hcount => not_congr (hsame count hcount)
  refine ⟨?_, h.eq_none_iff.trans hnone⟩
  rcases h.result with ⟨count, hlast, hfound⟩ | ⟨hno, hend⟩
  · exact .inl ⟨count, hlast.congr hsame, hfound⟩
  · exact .inr ⟨hnone.mp hno, hend⟩

theorem endsAtDeepest_shows {disk : Disk} (htree : disk.IsTree) (start : String)
    (decode : Bytes → Option Manifest) :
    EndsAtDeepest disk start decode (ShowsManifest disk (Path.parts (disk.absolute start))) := by
  obtain ⟨names, hnames, habsolute⟩ := disk.exists_absolute start
  have hparts : Path.parts (disk.absolute start) = names := by
    rw [habsolute, Path.parts_rooted hnames]
  have hfind : find disk start decode = climb disk (above names names.length) decode := by
    rw [find, habsolute, above_length]
  have hcases := climb_cases hnames htree decode (Nat.le_refl names.length)
  rw [← hfind] at hcases
  constructor
  · rw [hparts]
    refine hcases.imp_left ?_
    rintro ⟨count, hlast, hload⟩
    refine ⟨count, hlast, hload, fun manifest hfound => ?_⟩
    obtain ⟨loaded, hloaded, hsame⟩ := map_eq_ok_iff.mp (hload.symm.trans hfound)
    obtain rfl := Option.some.inj hsame
    have hsound := isSound_load hloaded
    rwa [above, disk.absolute_rooted (isPlain_take hnames count)] at hsound
  · rw [hparts]
    rcases hcases with ⟨count, hlast, hload⟩ | ⟨hnone, hend⟩
    · refine iff_of_false ?_ fun hnone => hnone count hlast.le hlast.has
      rw [hload, map_eq_ok_iff]
      rintro ⟨_, -, ⟨⟩⟩
    · exact iff_of_true hend hnone

/-- Searching for a manifest goes up from the absolute path to the root and comes to an end in every file
tree: at the deepest manifest that shows. That is the deepest there is, as long as the path of each manifest
on the way can be looked up. -/
theorem find_nearest (decode : Bytes → Option Manifest) (disk : Disk) (start : String)
    (htree : disk.IsTree) :
    let names := Path.parts (disk.absolute start)
    above names names.length = disk.absolute start ∧
      (∀ count < names.length, Path.parent (above names (count + 1)) = above names count) ∧
      Path.parent (above names 0) = above names 0 ∧
      EndsAtDeepest disk start decode (ShowsManifest disk names) ∧
      ((∀ count ≤ names.length, HasManifest disk names count →
          Disk.Fits (pathIn (above names count))) →
        EndsAtDeepest disk start decode (HasManifest disk names)) := by
  dsimp only
  have hends := endsAtDeepest_shows htree start decode
  obtain ⟨names, hnames, habsolute⟩ := disk.exists_absolute start
  obtain rfl : Path.parts (disk.absolute start) = names := by
    rw [habsolute, Path.parts_rooted hnames]
  refine ⟨(above_length _).trans habsolute.symm, fun count hcount => (parent_above hnames hcount).1,
    Path.parent_root, hends, fun hfits => ?_⟩
  apply hends.congr
  intro count hcount
  constructor
  · exact And.left
  · intro hhas
    exact ⟨hhas, hfits count hcount hhas⟩

/-- A manifest that is not one, below another. -/
def twoManifests : Disk where
  entries := [(["a"], .directory), (["a", "b"], .directory), (["plc0.toml"], .file []),
    (["a", "plc0.toml"], .file "[".toUTF8.toList)]

theorem find_nearest_malformed : twoManifests.IsTree ∧
    (∀ count ≤ 2, HasManifest twoManifests ["a", "b"] count →
      Disk.Fits (pathIn (above ["a", "b"] count))) ∧
    HasManifest twoManifests ["a", "b"] 0 ∧ IsLast (HasManifest twoManifests ["a", "b"]) 2 1 ∧
    find twoManifests "/a/b" = .error (.malformed "/a/plc0.toml") := by
  have htree : twoManifests.IsTree := Disk.isTree_of_entries (by decide)
  have hfits : ∀ count ≤ 2, HasManifest twoManifests ["a", "b"] count →
      Disk.Fits (pathIn (above ["a", "b"] count)) := by decide +kernel
  have hparts : Path.parts (twoManifests.absolute "/a/b") = ["a", "b"] := by decide +kernel
  have hlast : IsLast (HasManifest twoManifests ["a", "b"]) 2 1 := by
    refine ⟨by decide, by decide +kernel, fun other hlate hother => ?_⟩
    obtain rfl : other = 2 := by omega
    decide +kernel
  have hload : load twoManifests (above ["a", "b"] 1) = .error (.malformed "/a/plc0.toml") := by
    decide +kernel
  obtain ⟨-, -, -, -, hall⟩ := find_nearest parse? twoManifests "/a/b" htree
  rw [hparts] at hall
  refine ⟨htree, hfits, by decide +kernel, hlast, ?_⟩
  rcases (hall hfits).result with ⟨count, hcount, hfound, -⟩ | ⟨hnone, -⟩
  · rw [hparts] at hcount hfound
    obtain rfl := hcount.unique hlast
    rw [hfound, hload]
    rfl
  · rw [hparts] at hnone
    exact absurd hlast.has (hnone 1 hlast.le)

/-- A file in the last of directories that lie in each other. -/
def nested (location : Location) (node : Node) : Disk where
  entries := (location, node) :: (Disk.placesAbove location).map fun above => (above, .directory)

section Nested

variable {location : Location} {node : Node}

theorem mem_placesAbove {above : Location} (h : above <+: location) (hne : above ≠ location) :
    above ∈ Disk.placesAbove location := by
  have hlength : above.length < location.length :=
    Nat.lt_of_le_of_ne h.length_le fun hsame => hne (h.eq_of_length hsame)
  exact List.mem_map.mpr ⟨above.length, List.mem_range.mpr hlength, (List.prefix_iff_eq_take.mp h).symm⟩

theorem lookup_directories {places : List Location} {above : Location} (h : above ∈ places) :
    (places.map fun place => (place, Node.directory)).lookup above = some .directory := by
  induction places with
  | nil => cases h
  | cons place rest ih =>
      rw [List.map_cons, List.lookup_cons]
      by_cases hsame : above = place
      · rw [hsame, beq_self_eq_true]
      · rw [beq_false_of_ne hsame]
        exact ih ((List.mem_cons.mp h).resolve_left hsame)

theorem node?_nested_self (h : location ≠ []) : (nested location node).node? location = some node := by
  rw [Disk.node?.eq_2 _ _ h, nested, List.lookup_cons, beq_self_eq_true]

theorem node?_nested_above {above : Location} (h : above <+: location) (hne : above ≠ location) :
    (nested location node).node? above = some .directory := by
  by_cases hroot : above = []
  · rw [hroot]
    rfl
  · rw [Disk.node?.eq_2 _ _ hroot, nested, List.lookup_cons, beq_false_of_ne hne]
    exact lookup_directories (mem_placesAbove h hne)

theorem prefix_of_nested {place : Location} (h : (nested location node).node? place ≠ none) :
    place <+: location := by
  by_cases hroot : place = []
  · rw [hroot]
    exact List.nil_prefix
  · obtain ⟨found, hfound⟩ := Option.ne_none_iff_exists'.mp h
    rw [Disk.node?.eq_2 _ _ hroot] at hfound
    obtain ⟨before, after, hentries, -⟩ := List.lookup_eq_some_iff.mp hfound
    have hmem : (place, found) ∈ (nested location node).entries :=
      hentries ▸ List.mem_append_right _ List.mem_cons_self
    rcases List.mem_cons.mp hmem with hself | habove
    · rw [(Prod.mk.inj hself).1]
    · obtain ⟨above, hplaces, hsame⟩ := List.mem_map.mp habove
      obtain ⟨count, -, rfl⟩ := List.mem_map.mp hplaces
      rw [← (Prod.mk.inj hsame).1]
      exact List.take_prefix count location

theorem isTree_nested : (nested location node).IsTree := by
  intro above part hnode
  have hway := prefix_of_nested hnode
  apply node?_nested_above ((List.prefix_append _ _).trans hway)
  rintro rfl
  have hlength := hway.length_le
  rw [List.length_append, List.length_singleton] at hlength
  omega

end Nested

/-- Names that together are longer than a path. -/
def deepNames : List String :=
  List.replicate 32 (Path.nameOf 127)

theorem isPlain_deepNames : ∀ name ∈ deepNames, Path.IsPlain name := by
  intro name hname
  rw [List.eq_of_mem_replicate hname]
  exact Path.isPlain_nameOf (by decide)

theorem not_shows_deep (count : Nat) :
    ¬ShowsManifest (nested (deepNames ++ [fileName]) (.file [])) deepNames count := by
  rintro ⟨hhas, hfits⟩
  rcases List.prefix_concat_iff.mp (prefix_of_nested hhas) with hwhole | hshort
  · have hnames : deepNames.take count = deepNames := (List.append_inj' hwhole rfl).1
    have hdeep : deepNames ≠ [] := List.replicate_succ_ne_nil
    have hsize : (Path.ofParts true deepNames).utf8ByteSize = 32 * 128 := by
      rw [deepNames, Path.utf8ByteSize_replicate (Path.nameOf 127) 31, Path.utf8ByteSize_nameOf]
    have hlong := hfits.le_maxPath
    rw [above, hnames, pathIn_rooted isPlain_deepNames,
      Path.ofParts_concat true hdeep, String.utf8ByteSize_append,
      String.utf8ByteSize_append, hsize] at hlong
    exact absurd hlong (by decide)
  · have hname := hshort.subset (List.mem_append_right _ (List.mem_singleton_self _))
    have hlength := congrArg String.length (List.eq_of_mem_replicate hname)
    rw [Path.length_nameOf] at hlength
    exact absurd hlength (by decide)

/-- A manifest is overlooked when its path is longer than any that can be looked up. -/
theorem find_overlooking :
    let disk := nested (deepNames ++ [fileName]) (.file [])
    let start := Path.ofParts true deepNames
    disk.IsTree ∧ Path.parts (disk.absolute start) = deepNames ∧
      IsLast (HasManifest disk deepNames) deepNames.length deepNames.length ∧
      find disk start = .ok none := by
  have htree : (nested (deepNames ++ [fileName]) (.file [])).IsTree := isTree_nested
  have habsolute := (nested (deepNames ++ [fileName]) (.file [])).absolute_rooted isPlain_deepNames
  have hparts : Path.parts ((nested (deepNames ++ [fileName]) (.file [])).absolute
      (Path.ofParts true deepNames)) = deepNames := by
    rw [habsolute, Path.parts_rooted isPlain_deepNames]
  have hends := endsAtDeepest_shows htree (Path.ofParts true deepNames) parse?
  rw [hparts] at hends
  have hhas : HasManifest (nested (deepNames ++ [fileName]) (.file [])) deepNames deepNames.length := by
    rw [HasManifest, List.take_length, node?_nested_self (List.concat_ne_nil _ _)]
    rintro ⟨⟩
  exact ⟨htree, hparts, isLast_self hhas, hends.eq_none_iff.mpr fun count _ => not_shows_deep count⟩

end PlZero.Project.Manifest
