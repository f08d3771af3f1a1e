import GlyphField.Json.Basic

/-!
# GlyphField.Json.Codec

Implementations of JSON. What is kept as JSON is written and read through a codec: the forms of
single values, of lists and of records on some type of documents, with the readings of what has been
written. Floats are apart from these, as not all of them have a form.

* `Json.Codec` — an implementation, with its laws for everything but floats;
* `Json.Codec.FloatLaws` — its laws for floats;
* `Json.codec` — documents as values.
-/

namespace GlyphField.Json

/-- An implementation of JSON. Whatever is written, except for floats, is read back. -/
structure Codec (D : Type) where
  /-- What a float without a form is written as. -/
  null : D
  ofFloat : Float → D
  ofNat : Nat → D
  ofBool : Bool → D
  ofList : List D → D
  /-- A record, from the names of its fields and their values. -/
  ofRecord : List (String × D) → D
  toFloat? : D → Option Float
  /-- A natural number below a bound. -/
  toNat? : Nat → D → Option Nat
  toBool? : D → Option Bool
  toList? : D → Option (List D)
  /-- The values of a record with fields of these names. -/
  toRecord? : List String → D → Option (List D)
  /-- Numbers have at most 64 bits. -/
  toNat?_ofNat {bound n : Nat} : n < bound → bound ≤ UInt64.size → toNat? bound (ofNat n) = some n
  toBool?_ofBool (b : Bool) : toBool? (ofBool b) = some b
  toList?_ofList (ds : List D) : toList? (ofList ds) = some ds
  toRecord?_ofRecord (fields : List (String × D)) : (fields.map Prod.fst).Nodup →
    toRecord? (fields.map Prod.fst) (ofRecord fields) = some (fields.map Prod.snd)

namespace Codec

variable {D : Type}

/-- Reads every item of a list. -/
def toListOf? {α : Type} (C : Codec D) (read? : D → Option α) (d : D) : Option (List α) :=
  (C.toList? d).bind fun items => items.mapM read?

/-- A list is read back if each of its items is. -/
theorem toListOf?_ofList (C : Codec D) {α : Type} {write : α → D} {read? : D → Option α}
    {ok : α → Bool} (h : ∀ x, read? (write x) = if ok x then some x else none) (xs : List α) :
    C.toListOf? read? (C.ofList (xs.map write)) = if xs.all ok then some xs else none := by
  rw [toListOf?, C.toList?_ofList, Option.bind_some]
  induction xs with
  | nil => rfl
  | cons x xs ih =>
      rw [List.map_cons, List.mapM_cons, h, ih, List.all_cons]
      cases ok x with
      | false => rfl
      | true => cases xs.all ok <;> rfl

/-- A record is read back by the names of its fields. -/
theorem toRecord?_of_names (C : Codec D) {names : List String} {fields : List (String × D)}
    (hnames : fields.map Prod.fst = names) (h : names.Nodup) :
    C.toRecord? names (C.ofRecord fields) = some (fields.map Prod.snd) := by
  subst hnames
  exact C.toRecord?_ofRecord fields h

/-- A float that is not finite is lost; every other one comes back with all of its bits. -/
structure FloatLaws (C : Codec D) : Prop where
  toFloat?_ofFloat {x : Float} : x.isFinite = true → C.toFloat? (C.ofFloat x) = some x
  ofFloat_eq_null {x : Float} : x.isFinite = false → C.ofFloat x = C.null
  toFloat?_null : C.toFloat? C.null = none

/-- A float reads back exactly when it is finite. -/
theorem FloatLaws.read_back {C : Codec D} (h : C.FloatLaws) (x : Float) :
    C.toFloat? (C.ofFloat x) = if x.isFinite then some x else none := by
  split
  · next hfinite => exact h.toFloat?_ofFloat hfinite
  · next hfinite => rw [h.ofFloat_eq_null (by simpa using hfinite), h.toFloat?_null]

end Codec

/-! ## Documents as values -/

/-- Of fields with different names each is found by its name. -/
theorem field?_object {fields : List (String × Json)} (h : (fields.map Prod.fst).Nodup)
    {f : String × Json} (hf : f ∈ fields) : (object fields).field? f.1 = some f.2 := by
  obtain ⟨before, after, rfl⟩ := List.append_of_mem hf
  have hafter : ∀ g ∈ after, f.1 ≠ g.1 := by
    rw [List.map_append, List.map_cons] at h
    have hcons := (List.nodup_append.1 h).2.1
    intro g hg heq
    exact (List.nodup_cons.1 hcons).1 (heq ▸ List.mem_map_of_mem hg)
  refine List.lookup_eq_some_iff.2 ⟨after.reverse, before.reverse, by simp, fun g hg => ?_⟩
  simpa using hafter g (List.mem_reverse.1 hg)

theorem mapM_field? {j : Json} {fields : List (String × Json)}
    (h : ∀ f ∈ fields, j.field? f.1 = some f.2) :
    (fields.map Prod.fst).mapM (fun name => j.field? name) = some (fields.map Prod.snd) := by
  induction fields with
  | nil => rfl
  | cons f fs ih =>
      obtain ⟨hf, hfs⟩ := List.forall_mem_cons.1 h
      simp [List.mapM_cons, hf, ih hfs]

/-- A record is read back from all of its fields. -/
theorem toRecord?_object {fields : List (String × Json)} (h : (fields.map Prod.fst).Nodup) :
    (object fields).toRecord? (fields.map Prod.fst) = some (fields.map Prod.snd) :=
  mapM_field? fun _ hf => field?_object h hf

/-- Documents as values. -/
def codec : Codec Json where
  null := .null
  ofFloat := .ofFloat
  ofNat := .ofNat
  ofBool := .bool
  ofList := .array
  ofRecord := .object
  toFloat? := toFloat?
  toNat? := toNat?
  toBool? := toBool?
  toList? := toItems?
  toRecord? := toRecord?
  toNat?_ofNat {bound n} hn _ := by rw [Json.toNat?_ofNat, if_pos hn]
  toBool?_ofBool _ := rfl
  toList?_ofList _ := rfl
  toRecord?_ofRecord _ h := toRecord?_object h

theorem floatLaws_codec : codec.FloatLaws where
  toFloat?_ofFloat {x} h := by
    show (ofFloat x).toFloat? = some x
    rw [Json.toFloat?_ofFloat, if_pos h]
  ofFloat_eq_null {x} h := by
    show ofFloat x = null
    rw [ofFloat, h, if_neg (by decide)]
  toFloat?_null := rfl

end GlyphField.Json
