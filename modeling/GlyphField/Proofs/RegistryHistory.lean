import GlyphField.Registry
import Mathlib.Data.List.Nodup
import Mathlib.Data.String.Basic

/-!
# GlyphField.Proofs.RegistryHistory

A registry against the log of what has been done with it.  A glyph can be stored, refused or
removed, or all of them be cleared away; what a registry holds for an id is what the last event that
concerns the id has left.  The list that carries a registry shows in nothing but the order of its
ids, which is that of their bytes.

* `utf8_lt` — ids in order have their bytes in order;
* `get?_change` — the step: what one change leaves under each id;
* `get?_changeAll` — the run, from any registry;
* `refines_bounded_map` — every sequence of changes of the empty registry.
-/

namespace GlyphField

/-! ## the order of bytes -/

theorem lt_maxChar (c : Char) : c.val.toNat < 0x110000 := by
  obtain h | ⟨-, h⟩ := c.valid
  · exact h.trans (by decide)
  · exact h

/-- The bytes of a smaller character come first, whatever follows on either side. -/
theorem utf8EncodeChar_append_lt {c d : Char} (h : c < d) (s t : List UInt8) :
    String.utf8EncodeChar c ++ s < String.utf8EncodeChar d ++ t := by
  have hval : c.val.toNat < d.val.toNat := UInt32.lt_iff_toNat_lt.1 h
  have hc := lt_maxChar c
  have hd := lt_maxChar d
  have hlt (a b : Nat) (s t : List UInt8) (ha : a < 256) (hb : b < 256) :
      UInt8.ofNat a :: s < UInt8.ofNat b :: t ↔ a < b ∨ a = b ∧ s < t := by
    rw [List.cons_lt_cons_iff, UInt8.lt_iff_toNat_lt, ← UInt8.toNat_inj, UInt8.toNat_ofNat',
      UInt8.toNat_ofNat', Nat.mod_eq_of_lt ha, Nat.mod_eq_of_lt hb]
  unfold String.utf8EncodeChar
  generalize c.val.toNat = m at *
  generalize d.val.toNat = n at *
  -- the first group of six bits in which the characters differ
  have hfirst : m / 262144 < n / 262144 ∨ m / 262144 = n / 262144 ∧ (m / 4096 < n / 4096 ∨
      m / 4096 = n / 4096 ∧ (m / 64 < n / 64 ∨ m / 64 = n / 64 ∧ m % 64 < n % 64)) := by
    omega
  have hm : m / 64 / 64 = m / 4096 ∧ m / 4096 / 64 = m / 262144 := by omega
  have hn : n / 64 / 64 = n / 4096 ∧ n / 4096 / 64 = n / 262144 := by omega
  dsimp only
  split_ifs <;> simp (disch := omega) only [List.cons_append, List.nil_append, hlt] <;>
    obtain h | ⟨h₁, h | ⟨h₂, h | ⟨h₃, h⟩⟩⟩ := hfirst <;> omega

theorem flatMap_utf8EncodeChar_lt {cs ds : List Char} (h : cs < ds) :
    cs.flatMap String.utf8EncodeChar < ds.flatMap String.utf8EncodeChar := by
  induction h with
  | @nil d ds =>
      obtain ⟨b, bs, hd⟩ := List.exists_cons_of_ne_nil (String.utf8EncodeChar_ne_nil (c := d))
      rw [List.flatMap_nil, List.flatMap_cons, hd]
      exact List.nil_lt_cons _ _
  | rel h => exact utf8EncodeChar_append_lt h _ _
  | cons _ ih => exact List.append_left_lt ih

/-- Texts are ordered as their bytes. -/
theorem utf8_lt {a b : String} (h : a < b) : a.toUTF8.data.toList < b.toUTF8.data.toList := by
  have hbytes (s : String) : s.toUTF8.data.toList = s.toList.flatMap String.utf8EncodeChar := by
    conv_lhs => rw [← String.ofList_toList (s := s), String.toUTF8_eq_toByteArray]
    exact List.toList_data_toByteArray
  rw [hbytes, hbytes]
  exact flatMap_utf8EncodeChar_lt (String.lt_iff_toList_lt.1 h)

namespace Registry

/-! ## changes and events -/

/-- What is asked of a registry. -/
inductive Change where
  | insert (g : Glyph)
  | erase (id : String)
  | clear

/-- What a change has done. The glyph that was registered under the id before belongs to it. -/
inductive Event where
  | stored (g : Glyph) (old : Option Glyph)
  | refused (e : RegistryError)
  | removed (id : String) (old : Option Glyph)
  | cleared

/-- Makes a change. A glyph that is refused leaves the registry as it is. -/
def change (r : Registry) : Change → Event × Registry
  | .insert g =>
    match r.insert g with
    | .error e => (.refused e, r)
    | .ok (old, r) => (.stored g old, r)
  | .erase id => (.removed id (r.get? id), r.erase id)
  | .clear => (.cleared, empty)

/-- Makes changes in order; the log has an event for each. -/
def changeAll (r : Registry) : List Change → List Event × Registry
  | [] => ([], r)
  | c :: cs =>
    match r.change c with
    | (e, r) =>
      match r.changeAll cs with
      | (log, r) => (e :: log, r)

namespace Event

/-- The events after which an id may stand for another glyph than before. -/
def Concerns (id : String) : Event → Prop
  | .stored g _ => g.id = id
  | .refused _ => False
  | .removed id' _ => id' = id
  | .cleared => True

/-- What an event leaves under the ids it concerns. -/
def left? : Event → Option Glyph
  | .stored g _ => some g
  | _ => none

end Event

/-- The last event of the log that concerns the id has stored this glyph. -/
def LastStored (log : List Event) (id : String) (g : Glyph) : Prop :=
  ∃ before old after, log = before ++ .stored g old :: after ∧ g.id = id ∧
    ∀ e ∈ after, ¬e.Concerns id

variable {r r' : Registry} {g : Glyph} {id : String} {c : Change}

/-! ## one change -/

/-- A new id is refused by a full registry, and nothing else is. -/
theorem insert_eq_error_iff {e : RegistryError} :
    r.insert g = .error e ↔ r.get? g.id = none ∧ r.size = 256 ∧ e = .full g.id := by
  have hle : r.size ≤ 256 := r.length_le
  have hnew : r.get? g.id = none ↔ ¬r.contains g.id = true := by
    rw [contains, Bool.not_eq_true, Option.isSome_eq_false_iff, Option.isNone_iff_eq_none]
  unfold insert
  rw [hnew]
  split
  · next h =>
    constructor
    · rintro ⟨⟩
    · rintro ⟨hid, hfull, -⟩
      exact absurd hfull (Nat.ne_of_lt (h.resolve_left hid))
  · next h =>
    obtain ⟨hid, hfull⟩ := not_or.1 h
    have hfull : 256 ≤ r.size := Nat.le_of_not_lt hfull
    constructor
    · rintro ⟨⟩
      exact ⟨hid, Nat.le_antisymm hle hfull, rfl⟩
    · rintro ⟨-, -, rfl⟩
      rfl

/-- A glyph that is stored gives back the one it replaces, and changes only its own id. -/
theorem of_insert_eq_ok {old : Option Glyph} (h : r.insert g = .ok (old, r')) :
    old = r.get? g.id ∧ ∀ id, r'.get? id = if id = g.id then some g else r.get? id := by
  refine ⟨?_, fun id => ?_⟩
  · unfold insert at h
    split at h
    · exact (Prod.mk.inj (Except.ok.inj h)).1.symm
    · cases h
  · rw [get?_insert h]
    simp only [eq_comm]

/-- **The step of a history.**  A change leaves alone what its event does not concern. -/
theorem get?_change (r : Registry) (c : Change) (id : String) :
    ((r.change c).1.Concerns id → (r.change c).2.get? id = (r.change c).1.left?) ∧
      (¬(r.change c).1.Concerns id → (r.change c).2.get? id = r.get? id) := by
  cases c with
  | insert g =>
      simp only [change]
      split
      · exact ⟨False.elim, fun _ => rfl⟩
      · next old r' h =>
        have hget := get?_insert h id
        exact ⟨fun hid => hget.trans (if_pos hid), fun hid => hget.trans (if_neg hid)⟩
  | erase id' =>
      have hget := r.get?_erase id id'
      exact ⟨fun hid => hget.trans (if_pos (Eq.symm hid)),
        fun hid => hget.trans (if_neg (Ne.symm hid))⟩
  | clear => exact ⟨fun _ => rfl, fun h => absurd trivial h⟩

/-! ## histories -/

theorem lastStored_cons {e : Event} {log : List Event} : LastStored (e :: log) id g ↔
    LastStored log id g ∨
      (∀ e ∈ log, ¬e.Concerns id) ∧ e.Concerns id ∧ e.left? = some g := by
  constructor
  · rintro ⟨before, old, after, heq, hid, hafter⟩
    cases before with
    | nil =>
        obtain ⟨rfl, rfl⟩ := List.cons.inj heq
        exact .inr ⟨hafter, hid, rfl⟩
    | cons e' before =>
        obtain ⟨rfl, rfl⟩ := List.cons.inj heq
        exact .inl ⟨before, old, after, rfl, hid, hafter⟩
  · rintro (⟨before, old, after, rfl, hid, hafter⟩ | ⟨hafter, hid, hleft⟩)
    · exact ⟨e :: before, old, after, rfl, hid, hafter⟩
    · cases e with
      | stored g' old =>
          obtain rfl : g' = g := Option.some.inj hleft
          exact ⟨[], old, log, rfl, hid, hafter⟩
      | _ => cases hleft

/-- **The run.**  A registry holds what the log has stored last, or else what it held before. -/
theorem get?_changeAll (r : Registry) (cs : List Change) (id : String) (g : Glyph) :
    (r.changeAll cs).2.get? id = some g ↔
      LastStored (r.changeAll cs).1 id g ∨
        (∀ e ∈ (r.changeAll cs).1, ¬e.Concerns id) ∧ r.get? id = some g := by
  induction cs generalizing r with
  | nil => simp [changeAll, LastStored]
  | cons c cs ih =>
      obtain ⟨hleft, hkept⟩ := r.get?_change c id
      simp only [changeAll]
      rw [ih, lastStored_cons, List.forall_mem_cons]
      by_cases hc : (r.change c).1.Concerns id
      · rw [hleft hc]
        tauto
      · rw [hkept hc]
        tauto

/-! ## views -/

theorem mem_ids_iff : id ∈ r.ids ↔ (r.get? id).isSome = true := by
  refine ⟨fun h => ?_, fun h => ?_⟩
  · obtain ⟨g, hg, rfl⟩ := List.mem_map.1 h
    exact List.find?_isSome.2 ⟨g, hg, decide_eq_true rfl⟩
  · obtain ⟨g, hg⟩ := Option.isSome_iff_exists.1 h
    exact List.mem_map.2 ⟨g, Keyed.mem_of_find? hg, id_of_get? hg⟩

/-- The ids are listed in the order of their bytes. -/
theorem pairwise_ids (r : Registry) :
    r.ids.Pairwise fun a b => a.toUTF8.data.toList < b.toUTF8.data.toList :=
  List.pairwise_map.2 (r.sorted.imp utf8_lt)

/-- A listed glyph is the one its id stands for, since no other has the same id. -/
theorem get?_of_mem {g : Glyph} (h : g ∈ r.glyphs) : r.get? g.id = some g := by
  obtain ⟨g', hg'⟩ := Option.isSome_iff_exists.1 (mem_ids_iff.1 (List.mem_map_of_mem h))
  have hnodup : r.ids.Nodup := List.pairwise_map.2 (r.sorted.imp fun hlt => ne_of_lt hlt)
  rw [hg', List.inj_on_of_nodup_map hnodup (Keyed.mem_of_find? hg') h (id_of_get? hg')]

theorem map_get?_ids (r : Registry) : r.ids.map r.get? = r.glyphs.map some := by
  rw [ids, List.map_map]
  exact List.map_congr_left fun g hg => get?_of_mem hg

theorem size_eq_zero_iff : r.size = 0 ↔ ∀ id, r.get? id = none := by
  constructor
  · intro h id
    rw [get?, List.eq_nil_of_length_eq_zero h]
    rfl
  · intro h
    refine List.length_eq_zero_iff.2 (List.eq_nil_iff_forall_not_mem.2 fun g hg => ?_)
    have hget := get?_of_mem hg
    rw [h] at hget
    cases hget

/-- **A registry is a bounded map.**  After any changes of the empty registry, which holds no more
than 256 glyphs, an id stands for the glyph that has been stored under it last, unless it has been
removed or all have been cleared since, and a glyph only stands under its own id.  A new id is
refused by a full registry, which stays as it is; nothing else is refused, and a glyph that is
stored gives back the one it replaces and changes its own id alone.  The ids are listed in the order
of their bytes, exactly those that stand for a glyph, the glyphs in the same order; the size is the
number of ids. -/
theorem refines_bounded_map (cs : List Change) :
    let log := (empty.changeAll cs).1
    let r := (empty.changeAll cs).2
    (r.size ≤ 256 ∧ (∀ id g, r.get? id = some g ↔ LastStored log id g) ∧
      ∀ id g, r.get? id = some g → g.id = id) ∧
    (∀ g, (∀ e, r.insert g = .error e ↔ r.get? g.id = none ∧ r.size = 256 ∧ e = .full g.id) ∧
      (∀ e, r.insert g = .error e → r.change (.insert g) = (.refused e, r)) ∧
      ∀ old r', r.insert g = .ok (old, r') → r.change (.insert g) = (.stored g old, r') ∧
        old = r.get? g.id ∧ ∀ id, r'.get? id = if id = g.id then some g else r.get? id) ∧
    (r.ids.Pairwise (fun a b => a.toUTF8.data.toList < b.toUTF8.data.toList) ∧
      (∀ id, id ∈ r.ids ↔ ∃ g, r.get? id = some g) ∧ r.ids.map r.get? = r.glyphs.map some) ∧
    r.size = r.ids.length ∧ (r.size = 0 ↔ ∀ id, r.get? id = none) ∧
    ∀ id, r.contains id = true ↔ id ∈ r.ids := by
  intro log r
  have hget (id : String) (g : Glyph) : r.get? id = some g ↔ LastStored log id g := by
    rw [empty.get?_changeAll, get?_empty]
    refine or_iff_left ?_
    rintro ⟨-, ⟨⟩⟩
  refine ⟨⟨r.length_le, hget, fun id g h => id_of_get? h⟩, fun g => ⟨?_, ?_, ?_⟩,
    ⟨r.pairwise_ids, ?_, r.map_get?_ids⟩, ?_, size_eq_zero_iff, ?_⟩
  · exact fun e => insert_eq_error_iff
  · intro e h
    rw [change, h]
  · intro old r' h
    rw [change, h]
    exact ⟨rfl, of_insert_eq_ok h⟩
  · intro id
    rw [mem_ids_iff, Option.isSome_iff_exists]
  · exact (List.length_map _).symm
  · exact fun id => mem_ids_iff.symm

end Registry

end GlyphField
