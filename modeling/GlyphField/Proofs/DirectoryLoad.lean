import GlyphField.Proofs.PathSpelling
import GlyphField.Vault.Load

/-!
# GlyphField.Proofs.DirectoryLoad

Loading a directory is loading its files one after another.

* `Vault.loadFile_join` — a file of a directory that is loaded on its own passes the same gates,
  under the same root, as in the load of the directory;
* `Vault.loadDirectory_sequential` — a load of a directory does to the registry what the loads of
  its files do in the order of their names, its report is their reports in a row, and the order
  in which the directory lists its entries makes no difference.

The files are in a fixed state, so the questions are answered in the identity monad.
-/

namespace GlyphField

/-! ## reports in a row -/

namespace LoadReport

/-- One report and the next. -/
instance : Append LoadReport where
  append a b := ⟨a.loaded ++ b.loaded, a.rejected ++ b.rejected, a.skipped + b.skipped⟩

theorem append_def (a b : LoadReport) :
    a ++ b = ⟨a.loaded ++ b.loaded, a.rejected ++ b.rejected, a.skipped + b.skipped⟩ := rfl

@[simp] theorem append_empty (a : LoadReport) : a ++ ({} : LoadReport) = a := by
  simp [append_def]

/-- How many files a report is about. -/
def files (report : LoadReport) : Nat := report.loaded.length + report.rejected.length

end LoadReport

/-! ## file systems -/

namespace FileSystem

/-- What every file system does, whatever its files are: how names and paths are resolved. -/
structure Resolves (fs : FileSystem Id) : Prop where
  /-- The name of an entry has no slash. -/
  slash_notMem : ∀ {dir names}, fs.entries dir = Except.ok names → ∀ n ∈ names, Path.slash ∉ n
  /-- The empty path leads nowhere. -/
  canonicalize_nil : ∀ c, fs.canonicalize ⟨[]⟩ ≠ Except.ok c
  /-- Where a path with a slash at its end leads, it leads without that slash. -/
  canonicalize_slash : ∀ {bytes c}, bytes ≠ [] →
    fs.canonicalize ⟨bytes ++ [Path.slash]⟩ = Except.ok c → fs.canonicalize ⟨bytes⟩ = Except.ok c
  /-- Where a path leads that ends in a point behind a slash, it leads without that point. -/
  canonicalize_point : ∀ {bytes c},
    fs.canonicalize ⟨bytes ++ [Path.slash, Path.point]⟩ = Except.ok c →
      fs.canonicalize ⟨bytes ++ [Path.slash]⟩ = Except.ok c

/-- The same files, the entries of each directory listed in any order. -/
structure Reorders (fs fs' : FileSystem Id) : Prop where
  canonicalize : fs'.canonicalize = fs.canonicalize
  kind : fs'.kind = fs.kind
  content : fs'.content = fs.content
  entries : ∀ {dir names}, fs.entries dir = Except.ok names →
    ∃ names', fs'.entries dir = Except.ok names' ∧ names'.Perm names

variable {fs : FileSystem Id} {p c : Path}

namespace Resolves

/-- The last piece of a path that leads somewhere, when it says nothing. -/
theorem canonicalize_silent (hfs : fs.Resolves) {lead q : List UInt8} {ps : List (List UInt8)}
    (hs : Path.Spelling lead (ps ++ [q])) (hq : Path.isSilent q = true)
    (h : fs.canonicalize ⟨lead ++ [Path.slash].intercalate (ps ++ [q])⟩ = Except.ok c) :
    fs.canonicalize ⟨lead ++ [Path.slash].intercalate ps⟩ = Except.ok c := by
  have hq : q = [] ∨ q = [Path.point] := by simpa [Path.isSilent] using hq
  by_cases hps : ps = []
  · subst hps
    obtain rfl | rfl := hq
    · simpa using h
    · cases hs with
      | rooted =>
          have h : fs.canonicalize ⟨[] ++ [Path.slash, Path.point]⟩ = Except.ok c := h
          exact hfs.canonicalize_point h
      | relative _ _ hsilent => cases hsilent
  · rw [Text.intercalate_concat hps, ← List.append_assoc] at h
    refine hfs.canonicalize_slash (hs.of_concat hps).ne_nil ?_
    obtain rfl | rfl := hq
    · exact h
    · exact hfs.canonicalize_point h

theorem canonicalize_dropSilent (hfs : fs.Resolves) {lead : List UInt8}
    {ps : List (List UInt8)} (hs : Path.Spelling lead ps)
    (h : fs.canonicalize ⟨lead ++ [Path.slash].intercalate ps⟩ = Except.ok c) :
    fs.canonicalize ⟨lead ++ [Path.slash].intercalate (Path.dropSilent ps)⟩ = Except.ok c := by
  induction ps using List.reverseRecOn with
  | nil => exact h
  | append_singleton ps q ih =>
      cases hq : Path.isSilent q with
      | false => rwa [Path.dropSilent_concat hq]
      | true =>
          have h := hfs.canonicalize_silent hs hq h
          rw [Path.dropSilent_concat_silent hq]
          by_cases hps : ps = []
          · subst hps
            exact h
          · exact ih (hs.of_concat hps) h

theorem ne_nil (hfs : fs.Resolves) (h : fs.canonicalize p = Except.ok c) : p.bytes ≠ [] := by
  intro hp
  obtain ⟨bytes⟩ := p
  obtain rfl : bytes = [] := hp
  exact hfs.canonicalize_nil c h

/-- Silent pieces at the end of a path do not change where it leads. -/
theorem canonicalize_trimmed (hfs : fs.Resolves) (h : fs.canonicalize p = Except.ok c) :
    fs.canonicalize p.trimmed = Except.ok c := by
  refine hfs.canonicalize_dropSilent (Path.spelling_of_ne_nil (hfs.ne_nil h)) ?_
  rwa [Path.spelled]

end Resolves

end FileSystem

namespace Vault

variable {v : Vault} {fs fs' : FileSystem Id} {root canonical path : Path} {r r' : Registry}
  {report : LoadReport} {n : FileName} {names order : List FileName}

/-! ## one file -/

theorem canonicalRoot_eq_ok_iff :
    canonicalRoot fs root = Except.ok canonical ↔
      fs.canonicalize root = Except.ok canonical ∧ fs.kind canonical = Except.ok .directory := by
  dsimp only [canonicalRoot, bind, pure]
  cases hcanonical : fs.canonicalize root with
  | error e => simp
  | ok dir =>
      dsimp only
      split
      · next hkind =>
        constructor
        · intro h
          cases h
          exact ⟨rfl, hkind⟩
        · rintro ⟨h, -⟩
          cases h
          rfl
      · next hkind =>
        constructor
        · intro h
          cases h
        · rintro ⟨h, hdir⟩
          cases h
          exact absurd hdir hkind

theorem directoryOf_join (hfs : fs.Resolves) (hroot : fs.canonicalize root = Except.ok canonical)
    (hn : Path.IsEntryName n) : directoryOf (root.join n) = root.trimmed := by
  rw [directoryOf, Path.parent?_join (hfs.ne_nil hroot) hn]
  exact if_neg (hfs.ne_nil (hfs.canonicalize_trimmed hroot))

/-- A file of a directory, loaded on its own. -/
theorem loadFile_join (hfs : fs.Resolves) (hroot : canonicalRoot fs root = Except.ok canonical)
    (hn : Path.IsEntryName n) (r : Registry) :
    v.loadFile fs (root.join n) r
      = Except.ok (v.loadOne fs canonical (r, {}) (canonical.join n)) := by
  obtain ⟨hcanonical, hkind⟩ := canonicalRoot_eq_ok_iff.1 hroot
  have htrimmed : canonicalRoot fs root.trimmed = Except.ok canonical :=
    canonicalRoot_eq_ok_iff.2 ⟨hfs.canonicalize_trimmed hcanonical, hkind⟩
  have hfile := Path.fileName?_join (hfs.ne_nil hcanonical) hn
  dsimp only [loadFile, bind, pure]
  rw [directoryOf_join hfs hcanonical hn, htrimmed, hfile]
  rfl

theorem encode_extension_ne_nil (v : Vault) : Text.encode v.settings.extension ≠ [] := by
  intro hnil
  have hsize : v.settings.extension.utf8ByteSize = 0 := congrArg List.length hnil
  have hempty := String.utf8ByteSize_eq_zero_iff.1 hsize
  have hfault := v.fault?_eq_none
  rw [VaultSettings.fault?, hempty] at hfault
  split at hfault <;> cases hfault

/-- The extension is not empty, so a name that has it says something. -/
theorem isEntryName_of_hasExtension (hn : Path.slash ∉ n) (h : v.hasExtension n = true) :
    Path.IsEntryName n :=
  Path.isEntryName_of_extension? hn (of_decide_eq_true h) v.encode_extension_ne_nil

/-! ## files in a row -/

/-- Loads files on their own, one after another, into the same registry. -/
def loadFiles (v : Vault) (fs : FileSystem Id) :
    Registry → List Path → Except VaultError (Registry × LoadReport)
  | r, [] => .ok (r, {})
  | r, path :: paths => do
    let (r, report) ← Id.run (v.loadFile fs path r)
    let (r, rest) ← loadFiles v fs r paths
    return (r, report ++ rest)

/-- A state of loading, with an earlier report in front of its own. -/
def prepend (earlier : LoadReport) (state : Registry × LoadReport) : Registry × LoadReport :=
  (state.1, earlier ++ state.2)

theorem loadOne_eq (state : Registry × LoadReport) :
    v.loadOne fs root state path = register path (v.readDefinition fs root path) state := rfl

/-- What is reported of a file does not depend on the files before it. -/
theorem loadOne_prepend (earlier : LoadReport) (state : Registry × LoadReport) (path : Path) :
    v.loadOne fs root (prepend earlier state) path
      = prepend earlier (v.loadOne fs root state path) := by
  simp only [loadOne_eq, register, prepend]
  split <;> simp [LoadReport.append_def]

/-- A file is either loaded or refused. -/
theorem loadOne_files (v : Vault) (fs : FileSystem Id) (root : Path)
    (state : Registry × LoadReport) (path : Path) :
    (v.loadOne fs root state path).2.files = state.2.files + 1 ∧
      (v.loadOne fs root state path).2.skipped = state.2.skipped := by
  obtain ⟨r, report⟩ := state
  simp only [loadOne_eq, register]
  split <;> simp [LoadReport.files] <;> omega

theorem foldl_loadOne_prepend (earlier : LoadReport) (state : Registry × LoadReport)
    (paths : List Path) :
    paths.foldl (v.loadOne fs root) (prepend earlier state)
      = prepend earlier (paths.foldl (v.loadOne fs root) state) :=
  List.foldl_hom (prepend earlier) (loadOne_prepend earlier)

theorem foldl_loadOne_files (v : Vault) (fs : FileSystem Id) (root : Path) (paths : List Path)
    (state : Registry × LoadReport) :
    (paths.foldl (v.loadOne fs root) state).2.files = state.2.files + paths.length ∧
      (paths.foldl (v.loadOne fs root) state).2.skipped = state.2.skipped := by
  induction paths generalizing state with
  | nil => simp
  | cons path paths ih =>
      obtain ⟨hfiles, hskipped⟩ := loadOne_files v fs root state path
      obtain ⟨ihfiles, ihskipped⟩ := ih (v.loadOne fs root state path)
      rw [List.foldl_cons, List.length_cons]
      exact ⟨by omega, by omega⟩

theorem loadFiles_join (hfs : fs.Resolves) (hroot : canonicalRoot fs root = Except.ok canonical)
    (horder : ∀ n ∈ order, Path.IsEntryName n) (r : Registry) :
    v.loadFiles fs r (order.map root.join)
      = .ok ((order.map canonical.join).foldl (v.loadOne fs canonical) (r, {})) := by
  induction order generalizing r with
  | nil => rfl
  | cons n order ih =>
      obtain ⟨hn, horder⟩ := List.forall_mem_cons.1 horder
      obtain ⟨⟨r₁, first⟩, hfirst⟩ : ∃ state : Registry × LoadReport,
          v.loadOne fs canonical (r, {}) (canonical.join n) = state := ⟨_, rfl⟩
      have hprepend : (r₁, first) = prepend first (r₁, {}) := by simp [prepend]
      rw [List.map_cons, List.map_cons, loadFiles, loadFile_join hfs hroot hn, List.foldl_cons,
        hfirst, hprepend, foldl_loadOne_prepend]
      simp only [Id.run, bind, Except.bind, prepend, LoadReport.append_empty, ih horder]
      rfl

/-! ## directories -/

theorem candidates_perm (v : Vault) (names : List FileName) :
    (v.candidates names).Perm (names.filter v.hasExtension) :=
  List.mergeSort_perm _ _

theorem candidates_sorted (v : Vault) (names : List FileName) :
    (v.candidates names).Pairwise (· ≤ ·) := by
  have htrans (a b c : FileName) (hab : decide (a ≤ b) = true) (hbc : decide (b ≤ c) = true) :
      decide (a ≤ c) = true :=
    decide_eq_true (List.le_trans (of_decide_eq_true hab) (of_decide_eq_true hbc))
  have htotal (a b : FileName) : (decide (a ≤ b) || decide (b ≤ a)) = true := by
    simpa using List.le_total a b
  exact (List.pairwise_mergeSort htrans htotal _).imp of_decide_eq_true

theorem candidates_eq (hperm : order.Perm (names.filter v.hasExtension))
    (hsorted : order.Pairwise (· ≤ ·)) : v.candidates names = order :=
  List.Perm.eq_of_pairwise (fun _ _ _ _ => List.le_antisymm) (v.candidates_sorted names) hsorted
    ((v.candidates_perm names).trans hperm.symm)

/-- The order in which the names are listed does not matter. -/
theorem candidates_eq_of_perm {names' : List FileName} (h : names'.Perm names) :
    v.candidates names' = v.candidates names :=
  candidates_eq ((v.candidates_perm names).trans (h.filter v.hasExtension).symm)
    (v.candidates_sorted names)

theorem isEntryName_of_mem_candidates (hfs : fs.Resolves)
    (hentries : fs.entries canonical = Except.ok names) (hn : n ∈ v.candidates names) :
    Path.IsEntryName n := by
  obtain ⟨hmem, hext⟩ := List.mem_filter.1 ((v.candidates_perm names).mem_iff.1 hn)
  exact isEntryName_of_hasExtension (hfs.slash_notMem hentries n hmem) hext

/-- What is loaded from a directory with these entries. -/
def loadEntries (v : Vault) (fs : FileSystem Id) (canonical : Path) (names : List FileName)
    (r : Registry) : Registry × LoadReport :=
  ((v.candidates names).map canonical.join).foldl (v.loadOne fs canonical)
    (r, { skipped := names.countP fun n => !v.hasExtension n })

theorem loadDirectory_eq_ok_iff {state : Registry × LoadReport} :
    v.loadDirectory fs root r = Except.ok state ↔
      ∃ canonical names, canonicalRoot fs root = Except.ok canonical ∧
        fs.entries canonical = Except.ok names ∧ v.loadEntries fs canonical names r = state := by
  dsimp only [loadDirectory, bind, pure]
  constructor
  · intro h
    split at h
    · cases h
    · next canonical hroot =>
      split at h
      · cases h
      · next names hentries =>
        refine ⟨canonical, names, hroot, hentries, ?_⟩
        rw [loadEntries, List.foldl_eq_foldlM]
        exact Except.ok.inj h
  · rintro ⟨canonical, names, hroot, hentries, rfl⟩
    rw [loadEntries, List.foldl_eq_foldlM]
    simp only [hroot, hentries]
    rfl

/-- The entries with another extension are only counted. -/
theorem loadEntries_eq (v : Vault) (fs : FileSystem Id) (canonical : Path)
    (names : List FileName) (r : Registry) :
    v.loadEntries fs canonical names r
      = prepend { skipped := names.countP fun n => !v.hasExtension n }
          (((v.candidates names).map canonical.join).foldl (v.loadOne fs canonical) (r, {})) := by
  rw [← foldl_loadOne_prepend, prepend, LoadReport.append_empty]
  rfl

/-- Every entry is loaded, refused or skipped. -/
theorem loadEntries_length (v : Vault) (fs : FileSystem Id) (canonical : Path)
    (names : List FileName) (r : Registry) :
    (v.loadEntries fs canonical names r).2.files + (v.loadEntries fs canonical names r).2.skipped
      = names.length := by
  obtain ⟨hfiles, hskipped⟩ := foldl_loadOne_files v fs canonical
    ((v.candidates names).map canonical.join)
    (r, { skipped := names.countP fun n => !v.hasExtension n })
  have hcandidates : (v.candidates names).length = names.countP v.hasExtension := by
    rw [(v.candidates_perm names).length_eq, List.countP_eq_length_filter]
  have hnames := List.length_eq_countP_add_countP v.hasExtension (l := names)
  rw [List.length_map, hcandidates] at hfiles
  rw [loadEntries, hfiles, hskipped, hnames]
  simp [LoadReport.files]

theorem loadFiles_candidates (hfs : fs.Resolves)
    (hroot : canonicalRoot fs root = Except.ok canonical)
    (hentries : fs.entries canonical = Except.ok names)
    (h : v.loadEntries fs canonical names r = (r', report)) :
    v.loadFiles fs r ((v.candidates names).map root.join)
        = .ok (r', ⟨report.loaded, report.rejected, 0⟩) ∧
      report.skipped = names.countP fun n => !v.hasExtension n := by
  rw [loadFiles_join hfs hroot fun n => isEntryName_of_mem_candidates hfs hentries]
  rw [loadEntries_eq] at h
  have hskipped := (foldl_loadOne_files v fs canonical
    ((v.candidates names).map canonical.join) (r, {})).2
  obtain ⟨⟨r₁, loaded, rejected, skipped⟩, hstate⟩ : ∃ state : Registry × LoadReport,
    ((v.candidates names).map canonical.join).foldl (v.loadOne fs canonical) (r, {}) = state :=
      ⟨_, rfl⟩
  rw [hstate] at h hskipped ⊢
  obtain rfl : skipped = 0 := hskipped
  cases h
  simp [LoadReport.append_def]

/-- In whatever order a directory lists its entries, the same is loaded. -/
theorem loadDirectory_of_reorders {state : Registry × LoadReport} (horder : fs.Reorders fs')
    (h : v.loadDirectory fs root r = Except.ok state) :
    v.loadDirectory fs' root r = Except.ok state := by
  obtain ⟨canonical, names, hroot, hentries, rfl⟩ := loadDirectory_eq_ok_iff.1 h
  obtain ⟨names', hentries', hperm⟩ := horder.entries hentries
  obtain ⟨canonicalize', kind', entries', content'⟩ := fs'
  obtain ⟨rfl, rfl, rfl, -⟩ := horder
  refine loadDirectory_eq_ok_iff.2 ⟨canonical, names', hroot, hentries', ?_⟩
  rw [loadEntries, candidates_eq_of_perm hperm, hperm.countP_eq]
  rfl

/-- Loading a directory is loading its definitions one after another, each on its own, in the order
of their names; everything else in it is counted. The order of its entries does not matter. -/
theorem loadDirectory_sequential (v : Vault) {fs : FileSystem Id} {root : Path}
    {r r' : Registry} {report : LoadReport} (hfs : fs.Resolves)
    (h : v.loadDirectory fs root r = Except.ok (r', report)) :
    ∃ (canonical : Path) (names order : List FileName),
      canonicalRoot fs root = Except.ok canonical ∧ fs.entries canonical = Except.ok names ∧
      order.Perm (names.filter v.hasExtension) ∧ order.Pairwise (· ≤ ·) ∧
      v.loadFiles fs r (order.map root.join) = .ok (r', ⟨report.loaded, report.rejected, 0⟩) ∧
      report.skipped = (names.filter fun n => !v.hasExtension n).length ∧
      report.loaded.length + report.rejected.length + report.skipped = names.length ∧
      ∀ fs', fs.Reorders fs' → v.loadDirectory fs' root r = Except.ok (r', report) := by
  obtain ⟨canonical, names, hroot, hentries, hload⟩ := loadDirectory_eq_ok_iff.1 h
  obtain ⟨hfiles, hskipped⟩ := loadFiles_candidates hfs hroot hentries hload
  have hlength := v.loadEntries_length fs canonical names r
  rw [hload] at hlength
  refine ⟨canonical, names, v.candidates names, hroot, hentries, v.candidates_perm names,
    v.candidates_sorted names, hfiles, ?_, hlength, fun fs' horder => ?_⟩
  · rw [hskipped, List.countP_eq_length_filter]
  · exact loadDirectory_of_reorders horder h

/-! ## a shelf -/

/-- How the shelf can be spelled. -/
def shelfSpellings : List (List UInt8) := ["/v", "/v/", "/v/."].map Text.encode

/-- A directory `/v` with a definition, a link and a note, listed in no order. -/
def shelf : FileSystem Id where
  canonicalize p :=
    if p.bytes ∈ shelfSpellings then Except.ok (Path.ofString "/v")
    else if p = Path.ofString "/v/a.gdf" then Except.ok p
    else Except.error .notFound
  kind p :=
    if p = Path.ofString "/v" then Except.ok .directory
    else if p = Path.ofString "/v/a.gdf" then Except.ok .regular
    else if p = Path.ofString "/v/b.gdf" then Except.ok .symlink
    else Except.error .notFound
  entries p :=
    if p = Path.ofString "/v" then Except.ok (["b.gdf", "notes", "a.gdf"].map Text.encode)
    else Except.error .notFound
  content p :=
    if p = Path.ofString "/v/a.gdf" then Except.ok "glyph_id: a".toUTF8
    else Except.error .notFound

theorem shelf_canonicalize_concat {bytes : List UInt8} {b : UInt8} {c : Path}
    (hb : b = Path.slash ∨ b = Path.point)
    (h : shelf.canonicalize ⟨bytes ++ [b]⟩ = Except.ok c) :
    shelf.canonicalize ⟨bytes⟩ = Except.ok c := by
  have hclosed : ∀ l ∈ shelfSpellings,
      l.getLast? = some Path.slash ∨ l.getLast? = some Path.point → l.dropLast ∈ shelfSpellings := by
    decide
  simp only [shelf] at h ⊢
  split at h
  · next hmem =>
    have hbytes := hclosed _ hmem (by simpa using hb)
    rw [List.dropLast_concat] at hbytes
    rw [if_pos hbytes]
    exact h
  · split at h
    · next hfile =>
      have hlast := congrArg (fun p : Path => p.bytes.getLast?) hfile
      rw [List.getLast?_concat] at hlast
      obtain rfl | rfl := hb
      · exact absurd hlast (by decide)
      · exact absurd hlast (by decide)
    · cases h

theorem shelf_resolves : shelf.Resolves where
  slash_notMem {dir names} h := by
    simp only [shelf] at h
    split at h <;> cases h
    decide
  canonicalize_nil c h := by
    have hnil : shelf.canonicalize ⟨[]⟩ = Except.error .notFound := rfl
    cases hnil.symm.trans h
  canonicalize_slash {bytes c} _ h := shelf_canonicalize_concat (.inl rfl) h
  canonicalize_point {bytes c} h := by
    refine shelf_canonicalize_concat (.inr rfl) ?_
    rwa [List.append_assoc]

/-- The report on the shelf: the definition is loaded, the link refused and the note skipped. -/
def shelfReport : LoadReport :=
  ⟨["a"], [⟨Path.ofString "/v/b.gdf", .gate (.symlink (Path.ofString "/v/b.gdf"))⟩], 1⟩

/-- The registry of the shelf. -/
def shelfRegistry : Registry where
  glyphs := [{ id := "a" }]
  sorted := by
    unfold Keyed.Sorted
    decide
  length_le := by decide

theorem loadDirectory_shelfRegistry (root : Path)
    (hroot : canonicalRoot shelf root = Except.ok (Path.ofString "/v")) :
    standard.loadDirectory shelf root ∅ = Except.ok (shelfRegistry, shelfReport) := by
  have hcandidates : standard.candidates (["b.gdf", "notes", "a.gdf"].map Text.encode)
      = ["a.gdf", "b.gdf"].map Text.encode := candidates_eq (by decide) (by decide)
  have hentries : standard.loadEntries shelf (Path.ofString "/v")
      (["b.gdf", "notes", "a.gdf"].map Text.encode) ∅ = (shelfRegistry, shelfReport) := by
    rw [loadEntries, hcandidates]
    rfl
  exact loadDirectory_eq_ok_iff.2 ⟨_, _, hroot, rfl, hentries⟩

theorem exists_loadDirectory_shelf (root : Path)
    (hroot : canonicalRoot shelf root = Except.ok (Path.ofString "/v")) :
    ∃ r, standard.loadDirectory shelf root ∅ = Except.ok (r, shelfReport) :=
  ⟨shelfRegistry, loadDirectory_shelfRegistry root hroot⟩

theorem loadDirectory_shelf :
    shelf.Resolves ∧ ∃ r,
      standard.loadDirectory shelf (Path.ofString "/v/.") ∅ = Except.ok (r, shelfReport) ∧
      (∃ order : List FileName,
        standard.loadFiles shelf ∅ (order.map (Path.ofString "/v/.").join)
          = .ok (r, ⟨shelfReport.loaded, shelfReport.rejected, 0⟩)) ∧
      ∀ fs', shelf.Reorders fs' →
        standard.loadDirectory fs' (Path.ofString "/v/.") ∅ = Except.ok (r, shelfReport) := by
  obtain ⟨r, hload⟩ := exists_loadDirectory_shelf (Path.ofString "/v/.") rfl
  obtain ⟨_, _, order, -, -, -, -, hfiles, -, -, horder⟩ :=
    loadDirectory_sequential standard shelf_resolves hload
  exact ⟨shelf_resolves, r, hload, ⟨order, hfiles⟩, horder⟩

end Vault

end GlyphField
