import GlyphField.Proofs.PouchFrame
import GlyphField.Proofs.SnapshotRoundTrip

/-!
# GlyphField.Proofs.JsonRoundTrip

Snapshots as JSON, through any codec that has the laws of floats: one that is not finite has no
form there and becomes `null`, which no float is read from.  So each part of a snapshot, from a
component up to the whole, is read back as it was if its floats are finite, and otherwise not at
all.  Requests keep the cells of a substrate valid and the phases of its superpositions wrapped, so
that only amplitudes can stand in the way.

* `decode?_encode` — what is read back, for every snapshot;
* `PhasesFinite.perform` — the step of a run: one request;
* `json_persistence` — every run of requests from a new substrate.
-/

namespace GlyphField

open Binary64

/-! ## finite floats -/

/-- Whether all quantities are finite. -/
def Cell.isFinite (c : Cell) : Bool :=
  c.magnitude.isFinite && c.phase.isFinite && c.coherence.isFinite && c.decayRate.isFinite

/-- Whether amplitude and phase are finite. -/
def Component.isFinite (c : Component) : Bool := c.amplitude.isFinite && c.phase.isFinite

/-- Whether all components are finite. -/
def Superposition.isFinite (q : Superposition) : Bool := q.components.all Component.isFinite

/-- Whether all floats of a snapshot are finite. -/
def Snapshot.isFinite (p : Snapshot) : Bool :=
  p.cells.all Cell.isFinite && p.quantum.all fun e => e.state.isFinite

/-! ## reading back -/

namespace Snapshot

variable {D : Type} {C : Json.Codec D}

theorem decodeCell?_encodeCell (hfloats : C.FloatLaws) (c : Cell) :
    decodeCell? C (encodeCell C c) = if c.isFinite then some c else none := by
  have hfields : C.toRecord?
      ["magnitude", "phase", "coherence", "decay_rate", "last_update", "flags"] (encodeCell C c) =
        some [C.ofFloat c.magnitude, C.ofFloat c.phase, C.ofFloat c.coherence,
          C.ofFloat c.decayRate, C.ofNat c.lastUpdate.toNat, C.ofNat c.flags.toNat] :=
    C.toRecord?_of_names rfl (by simp)
  rw [decodeCell?, hfields]
  simp only [Option.bind_eq_bind, Option.bind_some, hfloats.read_back,
    C.toNat?_ofNat (UInt64.toNat_lt_size _) (by decide),
    C.toNat?_ofNat (UInt8.toNat_lt_size _) (by decide), UInt64.ofNat_toNat, UInt8.ofNat_toNat]
  unfold Cell.isFinite
  cases c.magnitude.isFinite <;> cases c.phase.isFinite <;> cases c.coherence.isFinite <;>
    cases c.decayRate.isFinite <;> rfl

theorem decodeComponent?_encodeComponent (hfloats : C.FloatLaws) (c : Component) :
    decodeComponent? C (encodeComponent C c) = if c.isFinite then some c else none := by
  have hfields : C.toRecord? ["amplitude", "phase"] (encodeComponent C c) =
      some [C.ofFloat c.amplitude, C.ofFloat c.phase] := C.toRecord?_of_names rfl (by simp)
  rw [decodeComponent?, hfields]
  simp only [Option.bind_eq_bind, Option.bind_some, hfloats.read_back]
  unfold Component.isFinite
  cases c.amplitude.isFinite <;> cases c.phase.isFinite <;> rfl

theorem decodeSuperposition?_encodeSuperposition (hfloats : C.FloatLaws) (q : Superposition) :
    decodeSuperposition? C (encodeSuperposition C q) = if q.isFinite then some q else none := by
  have hfields : C.toRecord? ["components", "collapsed"] (encodeSuperposition C q) =
      some [C.ofList (q.components.map (encodeComponent C)), C.ofBool q.collapsed] :=
    C.toRecord?_of_names rfl (by simp)
  rw [decodeSuperposition?, hfields]
  simp only [Option.bind_eq_bind, Option.bind_some, C.toBool?_ofBool,
    C.toListOf?_ofList (decodeComponent?_encodeComponent hfloats)]
  unfold Superposition.isFinite
  cases q.components.all Component.isFinite with
  | false => rfl
  | true => exact dif_pos q.length_le

theorem decodeRecord?_encodeRecord (hfloats : C.FloatLaws) (e : QuantumRecord) :
    decodeRecord? C (encodeRecord C e) = if e.state.isFinite then some e else none := by
  have hfields : C.toRecord? ["index", "state"] (encodeRecord C e) =
      some [C.ofNat e.index.toNat, encodeSuperposition C e.state] :=
    C.toRecord?_of_names rfl (by simp)
  rw [decodeRecord?, hfields]
  simp only [Option.bind_eq_bind, Option.bind_some,
    C.toNat?_ofNat (UInt64.toNat_lt_size _) (by decide), UInt64.ofNat_toNat,
    decodeSuperposition?_encodeSuperposition hfloats]
  cases e.state.isFinite <;> rfl

/-- A snapshot is read back as it was if all of its floats are finite, and otherwise not. -/
theorem decode?_encode (hfloats : C.FloatLaws) (p : Snapshot) :
    decode? C (encode C p) = if p.isFinite then some p else none := by
  have hfields : C.toRecord?
      ["version", "global_time", "checksum", "read_ops", "write_ops", "cells", "quantum"]
      (encode C p) =
        some [C.ofNat p.version.toNat, C.ofNat p.time.toNat, C.ofNat p.checksum.toNat,
          C.ofNat p.reads.toNat, C.ofNat p.writes.toNat, C.ofList (p.cells.map (encodeCell C)),
          C.ofList (p.quantum.map (encodeRecord C))] :=
    C.toRecord?_of_names rfl (by simp)
  rw [decode?, hfields]
  simp only [Option.bind_eq_bind, Option.bind_some,
    C.toNat?_ofNat (UInt64.toNat_lt_size _) (by decide),
    C.toNat?_ofNat (UInt32.toNat_lt_size _) (by decide),
    C.toNat?_ofNat (UInt16.toNat_lt_size _) (by decide),
    UInt64.ofNat_toNat, UInt32.ofNat_toNat, UInt16.ofNat_toNat,
    C.toListOf?_ofList (decodeCell?_encodeCell hfloats),
    C.toListOf?_ofList (decodeRecord?_encodeRecord hfloats)]
  unfold isFinite
  cases p.cells.all Cell.isFinite <;> cases p.quantum.all (fun e => e.state.isFinite) <;> rfl

end Snapshot

/-! ## what requests leave -/

theorem Angle.isFinite_of_isWrapped {x : Float} (h : isWrapped x = true) : x.isFinite = true := by
  simp only [isWrapped, Bool.and_eq_true, decide_eq_true_eq] at h
  exact isFinite_of_le_of_lt (by decide +kernel) (by decide +kernel) h.1 h.2

theorem Cell.isFinite_of_isValid {c : Cell} (h : c.isValid = true) : c.isFinite = true := by
  obtain ⟨hmagnitude, hphase, hcoherence, hrate⟩ := isValid_iff.1 h
  have hzero : (0 : Float).isFinite = true := by decide +kernel
  have hm := (Quantity.toRat_of_within hzero (by decide +kernel) hmagnitude).1
  have hp := Angle.isFinite_of_isWrapped hphase
  have hc := (Quantity.toRat_of_within hzero (by decide +kernel) hcoherence).1
  have hr := (Quantity.toRat_of_within hzero (by decide +kernel) hrate).1
  simp only [isFinite, hm, hp, hc, hr, Bool.and_self]

/-- A state made from pairs of an amplitude and a phase, which may have been marked as collapsed. -/
def Superposition.IsPrepared (q : Superposition) : Prop :=
  ∃ pairs q' collapsed, ofPairs pairs = .ok q' ∧ q = { q' with collapsed := collapsed }

/-- Every state that is stored is made from pairs. -/
def Request.IsPrepared : Request → Prop
  | .operation (.store _ q) => q.IsPrepared
  | _ => True

theorem Superposition.isFinite_phase_of_ofPairs {pairs : List (Float × Float)} {q : Superposition}
    (h : ofPairs pairs = .ok q) : ∀ c ∈ q.components, c.phase.isFinite = true := by
  unfold ofPairs ofComponents? at h
  split at h
  · next q' hq =>
    split at hq
    · cases hq
      cases h
      intro c hc
      obtain ⟨p, -, rfl⟩ := List.mem_map.1 hc
      exact Angle.isFinite_of_isWrapped (Angle.isWrapped_wrap p.2)
    · cases hq
  · cases h

namespace Substrate

/-- The phases of all stored components are finite. -/
def PhasesFinite (s : Substrate) : Prop :=
  ∀ e ∈ s.pouch.entries, ∀ c ∈ e.2.components, c.phase.isFinite = true

variable {s s' : Substrate}

theorem PhasesFinite.of_eq (h : s.PhasesFinite) (heq : s'.pouch = s.pouch) : s'.PhasesFinite := by
  rwa [PhasesFinite, heq]

theorem PhasesFinite.store {q : Superposition} (h : s.PhasesFinite) (i : Index)
    (hq : ∀ c ∈ q.components, c.phase.isFinite = true) : (s.store i q).PhasesFinite := by
  intro e he
  obtain rfl | he := Keyed.mem_insert he
  · exact hq
  · exact h e he

theorem PhasesFinite.withCell (h : s.PhasesFinite) (n : Nat) {act : Index → Outcome}
    (hact : ∀ i, (act i).2.PhasesFinite) : (s.withCell n act).2.PhasesFinite := by
  unfold Substrate.withCell
  cases locate n with
  | error e => exact h
  | ok i => exact hact i

theorem phasesFinite_initial : initial.PhasesFinite := fun _ he => absurd he List.not_mem_nil

theorem PhasesFinite.run {op : Operation} (h : s.PhasesFinite)
    (hop : (Request.operation op).IsPrepared) : (s.run op).2.PhasesFinite := by
  cases op with
  | init => exact phasesFinite_initial
  | tick => exact h.of_eq rfl
  | sync => exact h
  | read n => exact h.withCell n fun _ => h.of_eq rfl
  | write n v => exact h.withCell n fun _ => h.of_eq rfl
  | setDecayRate n rate => exact h.withCell n fun _ => h.of_eq rfl
  | force n f => exact h.withCell n fun _ => h.of_eq rfl
  | wave n w =>
      refine h.withCell n fun i => ?_
      cases w.fault? with
      | some e => exact h
      | none => exact h.of_eq (s.keeps_wave i w).pouch
  | store n q =>
      obtain ⟨pairs, q', collapsed, hpairs, rfl⟩ := hop
      have hphases := Superposition.isFinite_phase_of_ofPairs hpairs
      exact h.withCell n fun i => h.store i hphases
  | retrieve n => exact h.withCell n fun _ => h

/-- The superposition of an activation is made from pairs. -/
theorem PhasesFinite.project (h : s.PhasesFinite) (a : Activation) :
    (a.project s).2.PhasesFinite := by
  have hwrite : (s.write a.homeCell a.cellValue).PhasesFinite := h.of_eq rfl
  simp only [Activation.project]
  generalize s.write a.homeCell a.cellValue = s' at hwrite
  by_cases hcount : a.componentCount = 0
  · rw [if_pos hcount]
    exact hwrite.of_eq rfl
  · rw [if_neg hcount]
    cases hspread : Superposition.spread a.componentCount a.state.phase with
    | error e => exact hwrite
    | ok q =>
        have hphases := Superposition.isFinite_phase_of_ofPairs hspread
        exact (hwrite.store a.homeCell hphases).of_eq rfl

/-- **The step of a run.**  A request leaves finite phases finite. -/
theorem PhasesFinite.perform {rq : Request} (h : s.PhasesFinite) (hrq : rq.IsPrepared) :
    (s.perform rq).PhasesFinite := by
  cases rq with
  | operation op => exact h.run hrq
  | project a => exact h.project a

theorem PhasesFinite.performAll {rs : List Request} (h : s.PhasesFinite)
    (hrs : ∀ rq ∈ rs, rq.IsPrepared) : (s.performAll rs).PhasesFinite := by
  induction rs generalizing s with
  | nil => exact h
  | cons rq rs ih =>
      obtain ⟨hrq, hrs⟩ := List.forall_mem_cons.1 hrs
      exact ih (h.perform hrq) hrs

/-- Of a clean substrate with finite phases only amplitudes may be lost. -/
theorem isFinite_ofSubstrate_iff (hclean : s.Clean) (h : s.PhasesFinite) :
    (Snapshot.ofSubstrate s).isFinite = true ↔
      ∀ e ∈ s.pouch.entries, ∀ c ∈ e.2.components, c.amplitude.isFinite = true := by
  have hcells : s.cells.toList.all Cell.isFinite = true := by
    rw [List.all_eq_true]
    intro c hc
    obtain ⟨i, hi, rfl⟩ := Vector.getElem_of_mem (Vector.mem_toList_iff.1 hc)
    exact Cell.isFinite_of_isValid (hclean.isValid ⟨i, hi⟩)
  simp only [Snapshot.isFinite, Snapshot.ofSubstrate, hcells, Bool.true_and, List.all_map,
    List.all_eq_true, Function.comp_apply, Superposition.isFinite, Component.isFinite,
    Bool.and_eq_true]
  exact forall₂_congr fun e he => forall₂_congr fun c hc => and_iff_left (h e he c hc)

end Substrate

/-! ## persistence -/

namespace Snapshot

/-- **Persistence as JSON.**  Take any codec by which finite floats are read back, others become
`null` and `null` is no float, and any requests to a new substrate whose superpositions are made
from pairs of an amplitude and a phase, whatever floats they are.  The snapshot of what they leave
is read back from JSON exactly if every stored amplitude is finite.  It is then the same snapshot,
from which the same substrate is restored, and that one syncs clean. -/
theorem json_persistence {D : Type} {C : Json.Codec D} (hfloats : C.FloatLaws) (rs : List Request)
    (hrs : ∀ rq ∈ rs, rq.IsPrepared) :
    let s := Substrate.initial.performAll rs
    ((∃ p, decode? C (encode C (ofSubstrate s)) = some p) ↔
      ∀ e ∈ s.pouch.entries, ∀ c ∈ e.2.components, c.amplitude.isFinite = true) ∧
    ∀ p, decode? C (encode C (ofSubstrate s)) = some p →
      p = ofSubstrate s ∧ p.restore = .ok s ∧ s.sync = .ok () := by
  intro s
  have hclean : s.Clean := Substrate.clean_initial.performAll rs
  have hphases : s.PhasesFinite := Substrate.phasesFinite_initial.performAll hrs
  rw [← Substrate.isFinite_ofSubstrate_iff hclean hphases, decode?_encode hfloats]
  cases (ofSubstrate s).isFinite with
  | false => exact ⟨by simp, by simp⟩
  | true =>
      refine ⟨by simp, fun p hp => ?_⟩
      cases hp
      exact ⟨rfl, restore_ofSubstrate s, Substrate.sync_eq_ok_iff.2 hclean⟩

/-- A collapsed state of one component with this amplitude. -/
def collapsedState (amplitude : Float) : Superposition where
  components := [⟨amplitude, Angle.wrap 7⟩]
  collapsed := true
  length_le := by
    show 1 ≤ maxComponents
    decide

/-- The request to store such a state. -/
def storing (amplitude : Float) : Request := .operation (.store 5 (collapsedState amplitude))

theorem json_persistence_storing : Json.codec.FloatLaws ∧
    ofJson? (ofSubstrate (Substrate.initial.performAll [storing 0.5])).toJson =
        some (ofSubstrate (Substrate.initial.performAll [storing 0.5])) ∧
      ofJson? (ofSubstrate (Substrate.initial.performAll [storing (1 / 0)])).toJson = none := by
  have hprepared (x : Float) : ∀ rq ∈ [storing x], rq.IsPrepared :=
    List.forall_mem_singleton.2 ⟨[(x, 7)], _, true, rfl, rfl⟩
  have hentries (x : Float) : (Substrate.initial.performAll [storing x]).pouch.entries =
      [(5, collapsedState x)] := rfl
  refine ⟨Json.floatLaws_codec, ?_, ?_⟩
  · obtain ⟨hfinite, hback⟩ := json_persistence Json.floatLaws_codec [storing 0.5] (hprepared 0.5)
    obtain ⟨p, hp⟩ := hfinite.2 (by
      rw [hentries]
      decide +kernel)
    obtain ⟨rfl, -⟩ := hback p hp
    exact hp
  · obtain ⟨hfinite, -⟩ :=
      json_persistence Json.floatLaws_codec [storing (1 / 0)] (hprepared (1 / 0))
    rw [Option.eq_none_iff_forall_ne_some]
    intro p hp
    have hamplitude := hfinite.1 ⟨p, hp⟩
    rw [hentries] at hamplitude
    revert hamplitude
    decide +kernel

end Snapshot

end GlyphField
