import GlyphField.Proofs.DirectoryLoad

/-!
# GlyphField.Proofs.FileGates

What passes the gates between files and the registry. The gates are stated by themselves, about
names, paths and contents: a file that passes all of them is `Admitted` with its definition, and a
file that does not is `Refused` with the error of the first gate it meets closed. Every file is one
or the other, and reading tells which.

* `readDefinition_eq_ok_iff`, `readDefinition_eq_error_iff` — what reading a file comes to;
* `takenAll_foldl` — files in a row: each is recorded once, and one that is refused, by a gate or
  by a full registry, leaves the registry as it was;
* `load_guarded` — both ways of loading put nothing else into the registry.

The files are in a fixed state, so the questions are answered in the identity monad; nothing is
asked of the answers.
-/

namespace GlyphField

/-! ## names -/

theorem GlyphId.hasDoublePoint_iff {cs : List Char} :
    hasDoublePoint cs = true ↔ ['.', '.'] <:+: cs := by
  fun_induction hasDoublePoint cs with
  | case1 cs => simp [List.infix_cons_iff]
  | case2 c cs hne ih =>
      have hother : ¬['.', '.'] <+: c :: cs := by
        rintro ⟨rest, hrest⟩
        cases hrest
        exact hne rest rfl rfl
      rw [ih, List.infix_cons_iff]
      simp [hother]
  | case3 => simp

namespace Vault

/-- A name that may be loaded: not empty, not hidden, without separators, two points in a row and
control characters. -/
structure IsPlain (name : String) : Prop where
  ne_empty : name ≠ ""
  not_hidden : name.toList.head? ≠ some '.'
  no_slash : '/' ∉ name.toList
  no_backslash : '\\' ∉ name.toList
  no_double_point : ¬['.', '.'] <:+: name.toList
  no_control : ∀ c ∈ name.toList, Text.isControl c = false

theorem isSafeName_iff {name : String} : isSafeName name = true ↔ IsPlain name := by
  have hempty : name.isEmpty = false ↔ name ≠ "" := by
    rw [← Bool.not_eq_true, String.isEmpty_iff]
  have hdouble : GlyphId.hasDoublePoint name.toList = false ↔ ¬['.', '.'] <:+: name.toList := by
    rw [← Bool.not_eq_true, GlyphId.hasDoublePoint_iff]
  simp only [isSafeName, GlyphId.isPathLike, Bool.and_eq_true, Bool.not_eq_true', hempty,
    decide_eq_true_eq, Bool.or_eq_false_iff, hdouble, List.contains_eq_mem, decide_eq_false_iff_not,
    List.any_eq_false, Bool.not_eq_true]
  constructor
  · rintro ⟨⟨hne, hhidden⟩, ⟨⟨hslash, hbackslash⟩, hdouble⟩, hcontrol⟩
    exact ⟨hne, hhidden, hslash, hbackslash, hdouble, hcontrol⟩
  · rintro ⟨hne, hhidden, hslash, hbackslash, hdouble, hcontrol⟩
    exact ⟨⟨hne, hhidden⟩, ⟨⟨hslash, hbackslash⟩, hdouble⟩, hcontrol⟩

/-! ## gates -/

/-- The path ends in a name that is text and may be loaded. -/
def IsNamed (path : Path) : Prop :=
  ∃ n name, path.fileName? = some n ∧ Text.decode? n = some name ∧ IsPlain name

/-- Why the name of a path is refused: there is none, it is no text, or it may not be loaded. -/
inductive Unnamed (path : Path) : String → Prop
  | none (h : path.fileName? = none) : Unnamed path path.text
  | notText {n : FileName} (h : path.fileName? = some n) (htext : Text.decode? n = none) :
      Unnamed path (Text.decodeLossy n)
  | notPlain {n : FileName} {name : String} (h : path.fileName? = some n)
      (htext : Text.decode? n = some name) (hplain : ¬IsPlain name) : Unnamed path name

/-- The path is named, and leads to a regular file without following a link. -/
structure IsFile (fs : FileSystem Id) (path : Path) : Prop where
  named : IsNamed path
  kind : fs.kind path = Except.ok .regular

/-- The path is a file, and its canonical path has all parts of the root in front. -/
structure IsInside (fs : FileSystem Id) (root path canonical : Path) : Prop where
  file : IsFile fs path
  canonicalize : fs.canonicalize path = Except.ok canonical
  under : root.parts <+: canonical.parts

/-- The path is a file inside of the root with this content, which is not too large. -/
structure IsReadable (v : Vault) (fs : FileSystem Id) (root path : Path) (bytes : ByteArray) :
    Prop where
  inside : ∃ canonical, IsInside fs root path canonical ∧ fs.content canonical = Except.ok bytes
  size_le : bytes.size ≤ v.settings.maxFileSize

/-- The file passes all gates and defines this glyph. -/
def Admitted (v : Vault) (fs : FileSystem Id) (root path : Path) (g : Glyph) : Prop :=
  ∃ bytes, v.IsReadable fs root path bytes ∧ Glyph.readBytes bytes = .ok g

/-- The file meets a closed gate, the ones before it being open. -/
inductive Refused (v : Vault) (fs : FileSystem Id) (root path : Path) : LoadError → Prop
  | name {name : String} (h : Unnamed path name) :
      Refused v fs root path (.gate (.unsafeFileName name))
  | unknown {e : IoError} (h : IsNamed path) (hkind : fs.kind path = Except.error e) :
      Refused v fs root path (.io path e)
  | symlink (h : IsNamed path) (hkind : fs.kind path = Except.ok .symlink) :
      Refused v fs root path (.gate (.symlink path))
  | notRegular {k : FileKind} (h : IsNamed path) (hkind : fs.kind path = Except.ok k)
      (hk : k = .directory ∨ k = .special) : Refused v fs root path (.gate (.notRegular path))
  | unresolved {e : IoError} (h : IsFile fs path) (hplace : fs.canonicalize path = Except.error e) :
      Refused v fs root path (.io path e)
  | outside {canonical : Path} (h : IsFile fs path)
      (hplace : fs.canonicalize path = Except.ok canonical)
      (hunder : ¬root.parts <+: canonical.parts) :
      Refused v fs root path (.gate (.outsideVault path))
  | unreadable {canonical : Path} {e : IoError} (h : IsInside fs root path canonical)
      (hcontent : fs.content canonical = Except.error e) : Refused v fs root path (.io path e)
  | oversized {canonical : Path} {bytes : ByteArray} (h : IsInside fs root path canonical)
      (hcontent : fs.content canonical = Except.ok bytes)
      (hsize : v.settings.maxFileSize < bytes.size) :
      Refused v fs root path (.gate (.oversized path bytes.size v.settings.maxFileSize))
  | content {bytes : ByteArray} {e : ReadError} (h : v.IsReadable fs root path bytes)
      (hread : Glyph.readBytes bytes = .error e) : Refused v fs root path (.content e)

variable {v : Vault} {fs : FileSystem Id} {root path canonical : Path} {bytes : ByteArray}
  {g : Glyph} {e : LoadError}

theorem isNamed_or_unnamed (path : Path) : IsNamed path ∨ ∃ name, Unnamed path name := by
  cases hfile : path.fileName? with
  | none => exact .inr ⟨_, .none hfile⟩
  | some n =>
      cases htext : Text.decode? n with
      | none => exact .inr ⟨_, .notText hfile htext⟩
      | some name =>
          by_cases hplain : IsPlain name
          · exact .inl ⟨n, name, hfile, htext, hplain⟩
          · exact .inr ⟨name, .notPlain hfile htext hplain⟩

/-- Every file is admitted or refused. -/
theorem admitted_or_refused (v : Vault) (fs : FileSystem Id) (root path : Path) :
    (∃ g, v.Admitted fs root path g) ∨ ∃ e, v.Refused fs root path e := by
  obtain hnamed | ⟨name, hname⟩ := isNamed_or_unnamed path
  case inr => exact .inr ⟨_, .name hname⟩
  cases hkind : fs.kind path with
  | error e => exact .inr ⟨_, .unknown hnamed hkind⟩
  | ok k =>
      cases k with
      | symlink => exact .inr ⟨_, .symlink hnamed hkind⟩
      | directory => exact .inr ⟨_, .notRegular hnamed hkind (.inl rfl)⟩
      | special => exact .inr ⟨_, .notRegular hnamed hkind (.inr rfl)⟩
      | regular =>
          have hfile : IsFile fs path := ⟨hnamed, hkind⟩
          cases hplace : fs.canonicalize path with
          | error e => exact .inr ⟨_, .unresolved hfile hplace⟩
          | ok canonical =>
              by_cases hunder : root.parts <+: canonical.parts
              case neg => exact .inr ⟨_, .outside hfile hplace hunder⟩
              have hinside : IsInside fs root path canonical := ⟨hfile, hplace, hunder⟩
              cases hcontent : fs.content canonical with
              | error e => exact .inr ⟨_, .unreadable hinside hcontent⟩
              | ok bytes =>
                  by_cases hsize : v.settings.maxFileSize < bytes.size
                  · exact .inr ⟨_, .oversized hinside hcontent hsize⟩
                  have hreadable : v.IsReadable fs root path bytes :=
                    ⟨⟨canonical, hinside, hcontent⟩, Nat.le_of_not_lt hsize⟩
                  cases hread : Glyph.readBytes bytes with
                  | error e => exact .inr ⟨_, .content hreadable hread⟩
                  | ok g => exact .inl ⟨g, bytes, hreadable, hread⟩

/-! ## reading a file -/

theorem checkName_of_isNamed (h : IsNamed path) : checkName path = .ok () := by
  obtain ⟨n, name, hfile, htext, hplain⟩ := h
  simp [checkName, hfile, htext, isSafeName_iff.2 hplain]

theorem checkName_of_unnamed {name : String} (h : Unnamed path name) :
    checkName path = .error (.unsafeFileName name) := by
  cases h with
  | none h => simp [checkName, h]
  | notText h htext => simp [checkName, h, htext]
  | notPlain h htext hplain => simp [checkName, h, htext, mt isSafeName_iff.1 hplain]

theorem checkPlace_of_under (h : root.parts <+: canonical.parts) :
    checkPlace root path canonical = .ok () :=
  if_pos (List.isPrefixOf_iff_prefix.2 h)

theorem checkPlace_of_not_under (h : ¬root.parts <+: canonical.parts) :
    checkPlace root path canonical = .error (.outsideVault path) :=
  if_neg (mt List.isPrefixOf_iff_prefix.1 h)

theorem run_bind {ε α β : Type} (x : ExceptT ε Id α) (f : α → ExceptT ε Id β) :
    (x >>= f).run = @Except.bind ε α β x.run fun a => (f a).run := by
  change Except ε α at x
  cases x <;> rfl

/-- The gates in a row. -/
theorem readDefinition_eq (v : Vault) (fs : FileSystem Id) (root path : Path) :
    v.readDefinition fs root path =
      (((checkName path).mapError .gate).bind fun _ =>
        ((fs.kind path).mapError (.io path)).bind fun k =>
          ((checkKind path k).mapError .gate).bind fun _ =>
            ((fs.canonicalize path).mapError (.io path)).bind fun canonical =>
              ((checkPlace root path canonical).mapError .gate).bind fun _ =>
                ((fs.content canonical).mapError (.io path)).bind fun bytes =>
                  ((v.checkSize path bytes.size).mapError .gate).bind fun _ =>
                    (Glyph.readBytes bytes).mapError .content : Except LoadError Glyph) := by
  simp only [readDefinition, run_bind]
  rfl

/-- A named path is asked for its kind. -/
theorem readDefinition_of_isNamed (h : IsNamed path) :
    v.readDefinition fs root path =
      (((fs.kind path).mapError (.io path)).bind fun k =>
        ((checkKind path k).mapError .gate).bind fun _ =>
          ((fs.canonicalize path).mapError (.io path)).bind fun canonical =>
            ((checkPlace root path canonical).mapError .gate).bind fun _ =>
              ((fs.content canonical).mapError (.io path)).bind fun bytes =>
                ((v.checkSize path bytes.size).mapError .gate).bind fun _ =>
                  (Glyph.readBytes bytes).mapError .content : Except LoadError Glyph) := by
  rw [readDefinition_eq, checkName_of_isNamed h]
  rfl

/-- A file is asked for its canonical path. -/
theorem readDefinition_of_isFile (h : IsFile fs path) :
    v.readDefinition fs root path =
      (((fs.canonicalize path).mapError (.io path)).bind fun canonical =>
        ((checkPlace root path canonical).mapError .gate).bind fun _ =>
          ((fs.content canonical).mapError (.io path)).bind fun bytes =>
            ((v.checkSize path bytes.size).mapError .gate).bind fun _ =>
              (Glyph.readBytes bytes).mapError .content : Except LoadError Glyph) := by
  rw [readDefinition_of_isNamed h.named, h.kind]
  rfl

/-- A file inside of the root is asked for its content. -/
theorem readDefinition_of_isInside (h : IsInside fs root path canonical) :
    v.readDefinition fs root path =
      (((fs.content canonical).mapError (.io path)).bind fun bytes =>
        ((v.checkSize path bytes.size).mapError .gate).bind fun _ =>
          (Glyph.readBytes bytes).mapError .content : Except LoadError Glyph) := by
  rw [readDefinition_of_isFile h.file, h.canonicalize]
  simp only [Except.mapError, Except.bind, checkPlace_of_under h.under]

/-- A file that is not too large is read. -/
theorem readDefinition_of_isReadable (h : v.IsReadable fs root path bytes) :
    v.readDefinition fs root path = (Glyph.readBytes bytes).mapError LoadError.content := by
  obtain ⟨canonical, hinside, hcontent⟩ := h.inside
  rw [readDefinition_of_isInside hinside, hcontent]
  simp only [Except.mapError, Except.bind, checkSize, if_neg (Nat.not_lt.2 h.size_le)]

theorem readDefinition_of_admitted (h : v.Admitted fs root path g) :
    v.readDefinition fs root path = Except.ok g := by
  obtain ⟨bytes, hreadable, hread⟩ := h
  rw [readDefinition_of_isReadable hreadable, hread]
  rfl

theorem readDefinition_of_refused (h : v.Refused fs root path e) :
    v.readDefinition fs root path = Except.error e := by
  cases h with
  | name h =>
      rw [readDefinition_eq, checkName_of_unnamed h]
      rfl
  | unknown h hkind | symlink h hkind =>
      rw [readDefinition_of_isNamed h, hkind]
      rfl
  | notRegular h hkind hk =>
      rw [readDefinition_of_isNamed h, hkind]
      obtain rfl | rfl := hk <;> rfl
  | unresolved h hplace =>
      rw [readDefinition_of_isFile h, hplace]
      rfl
  | outside h hplace hunder =>
      rw [readDefinition_of_isFile h, hplace]
      simp only [Except.mapError, Except.bind, checkPlace_of_not_under hunder]
  | unreadable h hcontent =>
      rw [readDefinition_of_isInside h, hcontent]
      rfl
  | oversized h hcontent hsize =>
      rw [readDefinition_of_isInside h, hcontent]
      simp only [Except.mapError, Except.bind, checkSize, if_pos hsize]
  | content h hread =>
      rw [readDefinition_of_isReadable h, hread]
      rfl

theorem readDefinition_eq_ok_iff :
    v.readDefinition fs root path = Except.ok g ↔ v.Admitted fs root path g := by
  refine ⟨fun h => ?_, readDefinition_of_admitted⟩
  obtain ⟨g', hg⟩ | ⟨e, he⟩ := v.admitted_or_refused fs root path
  · cases h.symm.trans (readDefinition_of_admitted hg)
    exact hg
  · cases h.symm.trans (readDefinition_of_refused he)

theorem readDefinition_eq_error_iff :
    v.readDefinition fs root path = Except.error e ↔ v.Refused fs root path e := by
  refine ⟨fun h => ?_, readDefinition_of_refused⟩
  obtain ⟨g, hg⟩ | ⟨e', he⟩ := v.admitted_or_refused fs root path
  · cases h.symm.trans (readDefinition_of_admitted hg)
  · cases h.symm.trans (readDefinition_of_refused he)
    exact he

/-! ## files in a row -/

/-- What becomes of a file that is to be loaded: the registry after it, and the record of it. -/
inductive Taken (v : Vault) (fs : FileSystem Id) (root : Path) (r : Registry) (path : Path) :
    Registry → LoadReport → Prop
  | loaded {g : Glyph} {old : Option Glyph} {r' : Registry} (h : v.Admitted fs root path g)
      (hinsert : r.insert g = .ok (old, r')) : Taken v fs root r path r' ⟨[g.id], [], 0⟩
  | refused {e : LoadError} (h : v.Refused fs root path e) :
      Taken v fs root r path r ⟨[], [⟨path, e⟩], 0⟩
  | full {g : Glyph} {e : RegistryError} (h : v.Admitted fs root path g)
      (hinsert : r.insert g = .error e) : Taken v fs root r path r ⟨[], [⟨path, .registry e⟩], 0⟩

/-- What becomes of files in a row. -/
inductive TakenAll (v : Vault) (fs : FileSystem Id) (root : Path) :
    Registry → List Path → Registry → LoadReport → Prop
  | nil (r : Registry) : TakenAll v fs root r [] r {}
  | cons {r r₁ r' : Registry} {path : Path} {paths : List Path} {first rest : LoadReport}
      (h : v.Taken fs root r path r₁ first) (hrest : TakenAll v fs root r₁ paths r' rest) :
      TakenAll v fs root r (path :: paths) r' (first ++ rest)

variable {r r' : Registry} {report : LoadReport} {paths : List Path} {id : String}

/-- **The step of a load.** One file. -/
theorem taken_loadOne (v : Vault) (fs : FileSystem Id) (root path : Path) (r : Registry) :
    v.Taken fs root r path (v.loadOne fs root (r, {}) path).1
      (v.loadOne fs root (r, {}) path).2 := by
  rw [loadOne_eq]
  obtain ⟨g, hg⟩ | ⟨e, he⟩ := v.admitted_or_refused fs root path
  · rw [readDefinition_of_admitted hg]
    cases hinsert : r.insert g with
    | error e =>
        have hregister : register path (.ok g) (r, {})
            = (r, ⟨[], [⟨path, .registry e⟩], 0⟩) := by
          simp [register, Except.bind, Except.map, Except.mapError, hinsert]
        rw [hregister]
        exact .full hg hinsert
    | ok inserted =>
        obtain ⟨old, r'⟩ := inserted
        have hregister : register path (.ok g) (r, {}) = (r', ⟨[g.id], [], 0⟩) := by
          simp [register, Except.bind, Except.map, Except.mapError, hinsert]
        rw [hregister]
        exact .loaded hg hinsert
  · rw [readDefinition_of_refused he]
    exact .refused he

theorem takenAll_foldl (v : Vault) (fs : FileSystem Id) (root : Path) (r : Registry)
    (paths : List Path) :
    v.TakenAll fs root r paths (paths.foldl (v.loadOne fs root) (r, {})).1
      (paths.foldl (v.loadOne fs root) (r, {})).2 := by
  induction paths generalizing r with
  | nil => exact .nil r
  | cons path paths ih =>
      obtain ⟨⟨r₁, first⟩, hfirst⟩ : ∃ state : Registry × LoadReport,
        v.loadOne fs root (r, {}) path = state := ⟨_, rfl⟩
      have hprepend : (r₁, first) = prepend first (r₁, {}) := by simp [prepend]
      have htaken := v.taken_loadOne fs root path r
      rw [hfirst] at htaken
      rw [List.foldl_cons, hfirst, hprepend, foldl_loadOne_prepend]
      exact .cons htaken (ih r₁)

theorem Taken.files (h : v.Taken fs root r path r' report) :
    report.files = 1 ∧ report.skipped = 0 := by
  cases h <;> exact ⟨rfl, rfl⟩

/-- A glyph that a file brings in is the one that its gates have admitted. -/
theorem Taken.get? (h : v.Taken fs root r path r' report) (hg : r'.get? id = some g) :
    r.get? id = some g ∨ v.Admitted fs root path g := by
  cases h with
  | @loaded g' old _ h hinsert =>
      rw [Registry.get?_insert hinsert] at hg
      split at hg
      · cases hg
        exact .inr h
      · exact .inl hg
  | refused h => exact .inl hg
  | full h hinsert => exact .inl hg

/-- Every file is recorded once. -/
theorem TakenAll.files (h : v.TakenAll fs root r paths r' report) :
    report.files = paths.length ∧ report.skipped = 0 := by
  induction h with
  | nil => exact ⟨rfl, rfl⟩
  | cons h _ ih =>
      obtain ⟨hfiles, hskipped⟩ := h.files
      simp only [LoadReport.files, LoadReport.append_def, List.length_append,
        List.length_cons] at hfiles ih ⊢
      omega

theorem TakenAll.get? (h : v.TakenAll fs root r paths r' report) (hg : r'.get? id = some g) :
    r.get? id = some g ∨ ∃ path ∈ paths, v.Admitted fs root path g := by
  induction h with
  | nil => exact .inl hg
  | cons h _ ih =>
      obtain hg | ⟨path, hpath, hadmitted⟩ := ih hg
      · exact (h.get? hg).imp_right fun hadmitted => ⟨_, List.mem_cons_self, hadmitted⟩
      · exact .inr ⟨path, List.mem_cons_of_mem _ hpath, hadmitted⟩

/-- Files that were loaded from this registry into that one, with this report, past no gate. -/
structure Guarded (v : Vault) (fs : FileSystem Id) (root : Path) (r : Registry)
    (paths : List Path) (r' : Registry) (report : LoadReport) : Prop where
  /-- Each file is loaded or refused in turn. -/
  taken : v.TakenAll fs root r paths r' report
  /-- Each file is recorded once. -/
  recorded : report.loaded.length + report.rejected.length = paths.length
  /-- What is registered has been so before, or an admitted file defines it. -/
  admitted : ∀ id g, r'.get? id = some g →
    r.get? id = some g ∨ ∃ path ∈ paths, v.Admitted fs root path g

theorem TakenAll.guarded (h : v.TakenAll fs root r paths r' report) :
    v.Guarded fs root r paths r' report :=
  ⟨h, h.files.1, fun _ _ => h.get?⟩

/-! ## loading -/

/-- The file that is loaded for a path: the entry of that name in the root, or a path without a
name as it is. -/
def fileIn (root path : Path) : Path := (path.fileName?.map root.join).getD path

theorem loadFile_eq_ok_iff {state : Registry × LoadReport} :
    v.loadFile fs path r = Except.ok state ↔
      ∃ root, canonicalRoot fs (directoryOf path) = Except.ok root ∧
        v.loadOne fs root (r, {}) (fileIn root path) = state := by
  dsimp only [loadFile, bind, pure]
  constructor
  · intro h
    split at h
    · cases h
    · next root hroot => exact ⟨root, hroot, Except.ok.inj h⟩
  · rintro ⟨root, hroot, rfl⟩
    rw [hroot]
    rfl

theorem guarded_loadFile (h : v.loadFile fs path r = Except.ok (r', report)) :
    ∃ root, canonicalRoot fs (directoryOf path) = Except.ok root ∧
      v.Guarded fs root r [fileIn root path] r' report := by
  obtain ⟨root, hroot, hload⟩ := loadFile_eq_ok_iff.1 h
  have htaken := v.takenAll_foldl fs root r [fileIn root path]
  rw [List.foldl_cons, List.foldl_nil, hload] at htaken
  exact ⟨root, hroot, htaken.guarded⟩

theorem guarded_loadEntries {names : List FileName}
    (h : v.loadEntries fs canonical names r = (r', report)) :
    v.Guarded fs canonical r ((v.candidates names).map canonical.join) r'
      { report with skipped := 0 } := by
  have htaken := v.takenAll_foldl fs canonical r ((v.candidates names).map canonical.join)
  have hskipped := htaken.files.2
  rw [loadEntries_eq] at h
  obtain ⟨⟨r₁, loaded, rejected, skipped⟩, hstate⟩ : ∃ state : Registry × LoadReport,
    ((v.candidates names).map canonical.join).foldl (v.loadOne fs canonical) (r, {}) = state :=
      ⟨_, rfl⟩
  rw [hstate] at h htaken hskipped
  obtain rfl : skipped = 0 := hskipped
  cases h
  simpa [LoadReport.append_def] using htaken.guarded

/-- **Nothing comes past a gate.** A file is read to the glyph that it is admitted with, or refused
for the first gate that it does not pass. A load of a directory takes the entries with the
extension of definitions one after another, a load of a file takes that file; each of them is
loaded or refused, recorded once, and only the definition of an admitted file is put into the
registry, which one that is refused leaves as it was. -/
theorem load_guarded (v : Vault) (fs : FileSystem Id) :
    (∀ root path g,
      v.readDefinition fs root path = Except.ok g ↔ v.Admitted fs root path g) ∧
    (∀ root path e,
      v.readDefinition fs root path = Except.error e ↔ v.Refused fs root path e) ∧
    (∀ root r r' report, v.loadDirectory fs root r = Except.ok (r', report) →
      ∃ (canonical : Path) (names order : List FileName),
        canonicalRoot fs root = Except.ok canonical ∧
        fs.entries canonical = Except.ok names ∧ order.Perm (names.filter v.hasExtension) ∧
        v.Guarded fs canonical r (order.map canonical.join) r' { report with skipped := 0 }) ∧
    ∀ path r r' report, v.loadFile fs path r = Except.ok (r', report) →
      ∃ root, canonicalRoot fs (directoryOf path) = Except.ok root ∧
        v.Guarded fs root r [fileIn root path] r' report := by
  refine ⟨fun root path g => readDefinition_eq_ok_iff,
    fun root path e => readDefinition_eq_error_iff, fun root r r' report h => ?_,
    fun path r r' report h => guarded_loadFile h⟩
  obtain ⟨canonical, names, hroot, hentries, hload⟩ := loadDirectory_eq_ok_iff.1 h
  exact ⟨canonical, names, v.candidates names, hroot, hentries, v.candidates_perm names,
    guarded_loadEntries hload⟩

/-- The link on the shelf brings nothing in, neither with its directory nor alone. -/
theorem load_guarded_shelf : ∃ r,
    standard.loadDirectory shelf (Path.ofString "/v/.") ∅ = Except.ok (r, shelfReport) ∧
      (∀ id g, r.get? id = some g →
        standard.Admitted shelf (Path.ofString "/v") (Path.ofString "/v/a.gdf") g) ∧
      ∃ r', standard.loadFile shelf (Path.ofString "/v/b.gdf") r
          = Except.ok (r', ⟨[], shelfReport.rejected, 0⟩) ∧
        ∀ id g, r'.get? id = some g → r.get? id = some g := by
  obtain ⟨hread, -, hdirectory, hfile⟩ := load_guarded standard shelf
  have hlink (g : Glyph) :
      ¬standard.Admitted shelf (Path.ofString "/v") (Path.ofString "/v/b.gdf") g := by
    rw [← hread]
    intro h
    cases h
  obtain ⟨r, hload⟩ := exists_loadDirectory_shelf (Path.ofString "/v/.") rfl
  have halone : standard.loadFile shelf (Path.ofString "/v/b.gdf") r
      = Except.ok (r, ⟨[], shelfReport.rejected, 0⟩) := rfl
  refine ⟨r, hload, fun id g hg => ?_, r, halone, fun id g hg => ?_⟩
  · obtain ⟨canonical, names, order, hroot, hnames, horder, hguarded⟩ := hdirectory _ _ _ _ hload
    obtain rfl : Path.ofString "/v" = canonical := Except.ok.inj hroot
    obtain rfl : ["b.gdf", "notes", "a.gdf"].map Text.encode = names := Except.ok.inj hnames
    obtain h | ⟨path, hpath, h⟩ := hguarded.admitted id g hg
    · cases h
    · obtain ⟨n, hn, rfl⟩ := List.mem_map.1 hpath
      have hfilter : (["b.gdf", "notes", "a.gdf"].map Text.encode).filter standard.hasExtension
          = ["b.gdf", "a.gdf"].map Text.encode := by decide
      rw [horder.mem_iff, hfilter] at hn
      obtain rfl | rfl : n = Text.encode "b.gdf" ∨ n = Text.encode "a.gdf" := by simpa using hn
      · exact absurd h (hlink g)
      · exact h
  · obtain ⟨root, hroot, hguarded⟩ := hfile _ _ _ _ halone
    obtain rfl : Path.ofString "/v" = root := Except.ok.inj hroot
    obtain h | ⟨path, hpath, h⟩ := hguarded.admitted id g hg
    · exact h
    · obtain rfl := List.mem_singleton.1 hpath
      exact absurd h (hlink g)

end Vault

end GlyphField
