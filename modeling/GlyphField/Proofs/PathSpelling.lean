import GlyphField.Proofs.TextLines
import GlyphField.Vault.Path

/-!
# GlyphField.Proofs.PathSpelling

How a path is spelled, and what is left of it when an entry is added and taken away again.

* `Spelling` — the three ways in which a path starts, as its front with its pieces;
* `fileName?_join`, `parent?_join` — the path of an entry ends in the name of that entry, and its
  directory is spelled like before, without the silent pieces at its end.

Names are the names of entries: without a slash, and neither silent nor two points.
-/

namespace GlyphField.Text

variable {α : Type} [DecidableEq α] {sep : α}

/-! ## pieces -/

/-- The first piece is empty when a separator, or nothing, is first. -/
theorem head?_split_eq_nil_iff {l : List α} :
    (split sep l).head? = some [] ↔ l = [] ∨ l.head? = some sep := by
  cases l with
  | nil => simp
  | cons a l =>
      obtain ⟨q, qs, hq⟩ := List.exists_cons_of_ne_nil (split_ne_nil sep l)
      by_cases ha : a = sep <;> simp [split_cons, hq, splitStep, ha]

omit [DecidableEq α] in
theorem intercalate_concat {ps : List (List α)} (h : ps ≠ []) (p : List α) :
    [sep].intercalate (ps ++ [p]) = [sep].intercalate ps ++ sep :: p := by
  induction ps with
  | nil => contradiction
  | cons q qs ih =>
      cases qs with
      | nil => simp [List.intercalate]
      | cons r rs => simpa using ih (List.cons_ne_nil r rs)

end GlyphField.Text

namespace GlyphField.Path

open GlyphField.Text

variable {p : Path} {n : FileName} {lead : List UInt8} {ps : List (List UInt8)}

/-! ## fronts -/

/-- How a path that is not empty starts. -/
inductive Spelling : List UInt8 → List (List UInt8) → Prop
  /-- A leading slash. -/
  | rooted (ps : List (List UInt8)) : Spelling [slash] ps
  /-- A leading point, alone or before a slash. -/
  | current (ps : List (List UInt8)) : Spelling [point] ([] :: ps)
  /-- A first piece that says something. -/
  | relative (q : List UInt8) (ps : List (List UInt8)) :
      isSilent q = false → Spelling [] (q :: ps)

theorem front_isPrefix (p : Path) : p.front <+: p.bytes := by
  obtain ⟨bytes⟩ := p
  cases bytes with
  | nil => exact List.prefix_rfl
  | cons b rest =>
      simp only [front]
      split
      · next hb => simp [hb]
      · split
        · next hb => simp [hb.1]
        · exact List.nil_prefix

/-- The front and the pieces are the whole path. -/
theorem spelled (p : Path) : p.front ++ [slash].intercalate p.pieces = p.bytes := by
  rw [pieces, intercalate_split]
  exact List.prefix_iff_eq_append.1 (front_isPrefix p)

theorem spelling_of_ne_nil (h : p.bytes ≠ []) : Spelling p.front p.pieces := by
  obtain ⟨bytes⟩ := p
  obtain ⟨b, rest, rfl⟩ := List.exists_cons_of_ne_nil h
  by_cases hslash : b = slash
  · have hfront : front ⟨b :: rest⟩ = [slash] := by simp [front, hslash]
    rw [hfront]
    exact .rooted _
  by_cases hpoint : b = point ∧ (rest = [] ∨ rest.head? = some slash)
  · have hfront : front ⟨b :: rest⟩ = [point] := by
      simp only [front, if_neg hslash, if_pos hpoint]
    obtain ⟨qs, hqs⟩ := List.head?_eq_some_iff.1 (head?_split_eq_nil_iff.2 hpoint.2)
    have hpieces : pieces ⟨b :: rest⟩ = [] :: qs := by simp [pieces, hfront, hqs]
    rw [hfront, hpieces]
    exact .current qs
  · have hfront : front ⟨b :: rest⟩ = [] := by simp [front, hslash, hpoint]
    obtain ⟨q, qs, hq⟩ := List.exists_cons_of_ne_nil (split_ne_nil slash rest)
    have hpieces : pieces ⟨b :: rest⟩ = (b :: q) :: qs := by
      simp [pieces, hfront, split_cons, hq, splitStep, hslash]
    rw [hfront, hpieces]
    refine .relative _ qs ?_
    rw [← Bool.not_eq_true]
    intro hsilent
    obtain ⟨rfl, rfl⟩ : b = point ∧ q = [] := by simpa [isSilent] using hsilent
    -- a point alone is the first piece, so nothing or a slash follows it
    exact hpoint ⟨rfl, head?_split_eq_nil_iff.1 (by rw [hq]; rfl)⟩

/-- The pieces before the last one start like all pieces. -/
theorem Spelling.of_concat {q : List UInt8} (h : Spelling lead (ps ++ [q])) (hps : ps ≠ []) :
    Spelling lead ps := by
  obtain ⟨r, rs, rfl⟩ := List.exists_cons_of_ne_nil hps
  cases h with
  | rooted => exact .rooted _
  | current => exact .current rs
  | relative _ _ hr => exact .relative r rs hr

/-- Something is spelled. -/
theorem Spelling.ne_nil (h : Spelling lead ps) : lead ++ [slash].intercalate ps ≠ [] := by
  cases h with
  | rooted => simp
  | current => simp
  | relative q qs hq =>
      have hne : q ≠ [] := by
        rintro rfl
        cases hq
      cases qs <;> simp [List.intercalate, hne]

/-! ## silent pieces -/

theorem dropSilent_concat_silent {q : List UInt8} (hq : isSilent q = true) :
    dropSilent (ps ++ [q]) = dropSilent ps :=
  List.rdropWhile_concat_pos isSilent ps q hq

theorem dropSilent_concat {q : List UInt8} (hq : isSilent q = false) :
    dropSilent (ps ++ [q]) = ps ++ [q] :=
  List.rdropWhile_concat_neg isSilent ps q (by simp [hq])

/-- The path without the silent pieces at its end. -/
def trimmed (p : Path) : Path := ⟨p.front ++ [slash].intercalate (dropSilent p.pieces)⟩

/-! ## entries -/

/-- A name that a directory may list and that says more than "here" or "up". -/
structure IsEntryName (n : FileName) : Prop where
  slash_notMem : slash ∉ n
  not_silent : isSilent n = false
  not_up : n ≠ [point, point]

/-- What is written behind the path of a directory for one of its entries. -/
theorem bytes_join (p : Path) (n : FileName) :
    ∃ rest, (p.join n).bytes = p.bytes ++ rest ∧
      (rest = slash :: n ∨ rest = n ∧ (p.bytes = [] ∨ p.bytes.getLast? = some slash)) := by
  unfold join
  split
  · next h => exact ⟨n, rfl, .inr ⟨rfl, h⟩⟩
  · exact ⟨slash :: n, rfl, .inl rfl⟩

theorem front_join (hp : p.bytes ≠ []) (n : FileName) : (p.join n).front = p.front := by
  obtain ⟨bytes⟩ := p
  obtain ⟨b, bs, rfl⟩ := List.exists_cons_of_ne_nil hp
  obtain ⟨rest, hjoin, hrest⟩ := bytes_join ⟨b :: bs⟩ n
  rw [front, front, hjoin]
  cases bs with
  | cons c cs => simp
  | nil =>
      obtain rfl | ⟨-, hlast⟩ := hrest
      · simp
      · simp_all

theorem pieces_join (hp : p.bytes ≠ []) (hn : slash ∉ n) :
    ∃ ps, (p.join n).pieces = ps ++ [n] ∧ dropSilent ps = dropSilent p.pieces := by
  obtain ⟨rest, hjoin, hrest⟩ := bytes_join p n
  have hdrop : (p.join n).bytes.drop (p.join n).front.length
      = p.bytes.drop p.front.length ++ rest := by
    rw [front_join hp, hjoin, List.drop_append_of_le_length (front_isPrefix p).length_le]
  rw [pieces, pieces, hdrop]
  obtain rfl | ⟨rfl, hlast⟩ := hrest
  · exact ⟨_, by rw [split_append_split, split_eq_singleton hn], rfl⟩
  · obtain h | ⟨l, c, h⟩ := List.eq_nil_or_concat (p.bytes.drop p.front.length)
    · refine ⟨[], ?_, ?_⟩
      · rw [h, List.nil_append, split_eq_singleton hn]; rfl
      · rw [h]; rfl
    · obtain rfl : c = slash := by
        have hc := hlast.resolve_left hp
        rw [← List.take_append_drop p.front.length p.bytes, h] at hc
        simpa using hc
      rw [h, List.concat_eq_append]
      refine ⟨split slash l, ?_, ?_⟩
      · rw [List.append_assoc, List.singleton_append, split_append_split, split_eq_singleton hn]
      · rw [split_append_split, split_nil, dropSilent_concat_silent rfl]

theorem getLast?_parts (hpieces : p.pieces = ps ++ [n]) (hn : IsEntryName n) :
    p.parts.getLast? = some (.name n) := by
  simp [parts, hpieces, hn.not_silent, piecePart, hn.not_up]

theorem fileName?_join (hp : p.bytes ≠ []) (hn : IsEntryName n) :
    (p.join n).fileName? = some n := by
  obtain ⟨ps, hpieces, -⟩ := pieces_join hp hn.slash_notMem
  rw [fileName?, getLast?_parts hpieces hn]

theorem parent?_join (hp : p.bytes ≠ []) (hn : IsEntryName n) :
    (p.join n).parent? = some p.trimmed := by
  obtain ⟨ps, hpieces, hsilent⟩ := pieces_join hp hn.slash_notMem
  simp only [parent?, getLast?_parts hpieces hn, hpieces, dropSilent_concat hn.not_silent,
    List.dropLast_concat, hsilent, front_join hp, trimmed]

example : ((ofString "./vault//.").join [97]).parent? = some (ofString "./vault") := by decide

/-- The extension of a name is what follows its last point, and something stands before it. -/
theorem extension?_eq_some {e : List UInt8} (h : extension? n = some e) :
    ∃ stem, stem ≠ [] ∧ n = stem ++ point :: e := by
  unfold extension? at h
  split at h
  · cases h
  · next stem e' hcut =>
    split at h
    · cases h
    · next hstem =>
      obtain rfl : e' = e := Option.some.inj h
      simp only [cutLast?, Option.map_eq_some_iff, Prod.mk.injEq] at hcut
      obtain ⟨⟨b, a⟩, hcut, rfl, rfl⟩ := hcut
      refine ⟨a.reverse, hstem, ?_⟩
      have h := congrArg List.reverse (cut?_eq_some_iff.1 hcut).1
      simpa using h

/-- A name with an extension that is not empty says something. -/
theorem isEntryName_of_extension? {e : List UInt8} (hn : slash ∉ n) (h : extension? n = some e)
    (he : e ≠ []) : IsEntryName n := by
  obtain ⟨stem, hstem, rfl⟩ := extension?_eq_some h
  have hlength : 3 ≤ (stem ++ point :: e).length := by
    have := List.length_pos_iff.2 hstem
    have := List.length_pos_iff.2 he
    simp only [List.length_append, List.length_cons]
    omega
  refine ⟨hn, ?_, ?_⟩
  · rw [← Bool.not_eq_true]
    intro hsilent
    obtain h | h : stem ++ point :: e = [] ∨ stem ++ point :: e = [point] := by
      simpa only [isSilent, Bool.or_eq_true, decide_eq_true_eq] using hsilent
    all_goals simp only [h, List.length_nil, List.length_singleton] at hlength; omega
  · intro h
    simp only [h, List.length_cons, List.length_nil] at hlength
    omega

end GlyphField.Path
