import Mathlib.Data.List.Chain
import Mathlib.Logic.Relation
import Mathlib.Order.Bounds.Basic

/-!
# GlyphField.Proofs.Chains

Chains of links and their lengths, for the two graphs of a registry: that of declared parents and
that of entanglements.  Reaching is Mathlib's `Relation.ReflTransGen`, a cycle is a point related
to itself by `Relation.TransGen`; `Chain` adds the number of links.

* `acyclic_of_chain_le` — where chains are bounded, no cycle can be reached;
* `isHeight_of_links` — the height of a point, from the heights of the points it is linked to.
-/

namespace GlyphField

open Relation (ReflTransGen TransGen)

variable {α : Type} {R : α → α → Prop}

/-- `Chain R n a b`: a chain of `n` links leads from `a` to `b`. -/
inductive Chain (R : α → α → Prop) : Nat → α → α → Prop
  | nil (a : α) : Chain R 0 a a
  | cons {n : Nat} {a b c : α} (h : R a b) (t : Chain R n b c) : Chain R (n + 1) a c

/-- `Acyclic R a`: no cycle can be reached from `a`. -/
def Acyclic (R : α → α → Prop) (a : α) : Prop := ∀ b, ReflTransGen R a b → ¬TransGen R b b

/-- `h` is the length of the longest chain from `a`. -/
def IsHeight (R : α → α → Prop) (a : α) (h : Nat) : Prop := IsGreatest {n | ∃ b, Chain R n a b} h

/-! ## chains and reaching -/

namespace Chain

theorem append {m n : Nat} {a b c : α} (h : Chain R m a b) (t : Chain R n b c) :
    Chain R (m + n) a c := by
  induction h with
  | nil a => rwa [Nat.zero_add]
  | cons hab _ ih =>
      have hmn := ih t
      rw [Nat.add_right_comm]
      exact .cons hab hmn

theorem concat {n : Nat} {a b c : α} (h : Chain R n a b) (hbc : R b c) : Chain R (n + 1) a c :=
  h.append (.cons hbc (.nil c))

theorem reflTransGen {n : Nat} {a b : α} (h : Chain R n a b) : ReflTransGen R a b := by
  induction h with
  | nil a => exact .refl
  | cons hab _ ih => exact ih.head hab

theorem exists_of_reflTransGen {a b : α} (h : ReflTransGen R a b) : ∃ n, Chain R n a b := by
  induction h with
  | refl => exact ⟨0, .nil a⟩
  | tail _ hbc ih =>
      obtain ⟨n, hn⟩ := ih
      exact ⟨n + 1, hn.concat hbc⟩

theorem exists_of_transGen {a b : α} (h : TransGen R a b) : ∃ n, Chain R (n + 1) a b := by
  obtain ⟨c, hac, hcb⟩ := Relation.TransGen.head'_iff.1 h
  obtain ⟨n, hn⟩ := exists_of_reflTransGen hcb
  exact ⟨n, .cons hac hn⟩

/-- Around a cycle there are chains of any length. -/
theorem exists_le_of_cycle {n : Nat} {a : α} (h : Chain R (n + 1) a a) (k : Nat) :
    ∃ m, k ≤ m ∧ Chain R m a a := by
  induction k with
  | zero => exact ⟨n + 1, Nat.zero_le _, h⟩
  | succ k ih =>
      obtain ⟨m, hkm, hm⟩ := ih
      exact ⟨n + 1 + m, by omega, h.append hm⟩

end Chain

/-- The points along a chain. -/
theorem Chain.exists_isChain {n : Nat} {a b : α} (h : Chain R n a b) :
    ∃ l : List α, (a :: l).IsChain R ∧ l.length = n := by
  induction h with
  | nil a => exact ⟨[], .singleton a, rfl⟩
  | @cons n a b c hab _ ih =>
      obtain ⟨l, hl, hlen⟩ := ih
      exact ⟨b :: l, hl.cons_cons hab, by rw [List.length_cons, hlen]⟩

theorem pairwise_transGen {l : List α} (h : l.IsChain R) : l.Pairwise (TransGen R) :=
  List.isChain_iff_pairwise.1 (h.imp fun _ _ hab => .single hab)

/-- A chain of points meets only what can be reached from its first one. -/
theorem reflTransGen_of_isChain {a b : α} {l : List α} (h : (a :: l).IsChain R)
    (hb : b ∈ a :: l) : ReflTransGen R a b := by
  obtain rfl | hb := List.mem_cons.1 hb
  · exact .refl
  · exact ((List.pairwise_cons.1 (pairwise_transGen h)).1 b hb).to_reflTransGen

/-- Without cycles no point stands in a chain twice. -/
theorem Acyclic.nodup {a : α} {l : List α} (ha : Acyclic R a) (h : (a :: l).IsChain R) :
    (a :: l).Nodup := by
  refine (pairwise_transGen h).imp_of_mem fun hb _ hbc => ?_
  rintro rfl
  exact ha _ (reflTransGen_of_isChain h hb) hbc

/-- Where no chain is longer than a bound, no cycle can be reached. -/
theorem acyclic_of_chain_le {a : α} {k : Nat} (h : ∀ n b, Chain R n a b → n ≤ k) :
    Acyclic R a := by
  intro b hab hbb
  obtain ⟨n, hn⟩ := Chain.exists_of_transGen hbb
  obtain ⟨l, hl⟩ := Chain.exists_of_reflTransGen hab
  obtain ⟨m, hkm, hm⟩ := hn.exists_le_of_cycle (k + 1)
  have hbound := h (l + m) b (hl.append hm)
  omega

/-! ## heights -/

theorem IsHeight.chain_le {a b : α} {h n : Nat} (hh : IsHeight R a h) (hc : Chain R n a b) :
    n ≤ h :=
  hh.2 ⟨b, hc⟩

/-- The height of a point is one more than the greatest height of the points it is linked to; it
is zero without links. -/
theorem isHeight_of_links {a : α} {hs : List Nat}
    (hsound : ∀ x ∈ hs, ∃ b h, R a b ∧ IsHeight R b h ∧ x = h + 1)
    (hall : ∀ b, R a b → ∃ h, IsHeight R b h ∧ h + 1 ∈ hs) : IsHeight R a (hs.foldl max 0) := by
  have hmax : hs.foldl max 0 = hs.max?.getD 0 := by rw [List.foldl_max, Nat.zero_max]
  rw [hmax]
  cases hm : hs.max? with
  | none =>
      have hnil : hs = [] := List.max?_eq_none_iff.1 hm
      refine ⟨⟨a, .nil a⟩, ?_⟩
      rintro n ⟨c, hc⟩
      cases hc with
      | nil => exact Nat.le_refl _
      | cons hab _ =>
          obtain ⟨h, -, hmem⟩ := hall _ hab
          simp [hnil] at hmem
  | some m =>
      obtain ⟨hmem, hle⟩ := List.max?_eq_some_iff.1 hm
      constructor
      · obtain ⟨b, h, hab, ⟨⟨c, hc⟩, -⟩, rfl⟩ := hsound m hmem
        exact ⟨c, .cons hab hc⟩
      · rintro n ⟨c, hc⟩
        cases hc with
        | nil => exact Nat.zero_le _
        | cons hab t =>
            obtain ⟨h, hh, hx⟩ := hall _ hab
            exact Nat.le_trans (Nat.succ_le_succ (hh.chain_le t)) (hle _ hx)

end GlyphField
