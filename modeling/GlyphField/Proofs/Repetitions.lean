import Mathlib.Data.List.Basic
import Mathlib.Data.List.Nodup

/-!
# GlyphField.Proofs.Repetitions

Lists with their repetitions erased: of each entry the first occurrence stays.
-/

namespace GlyphField

variable {α : Type} [DecidableEq α]

theorem nodup_eraseDups (l : List α) : l.eraseDups.Nodup := by
  induction hn : l.length using Nat.strongRecOn generalizing l with
  | ind n ih =>
      cases l with
      | nil => exact List.nodup_nil
      | cons a as =>
          have hlt : (as.filter fun b => !b == a).length < n := by
            have := List.length_filter_le (fun b => !b == a) as
            rw [List.length_cons] at hn
            omega
          rw [List.eraseDups_cons, List.nodup_cons]
          exact ⟨by simp, ih _ hlt _ rfl⟩

/-- What stands in front already is erased. -/
theorem eraseDups_append_of_subset {as bs : List α} (h : bs ⊆ as) (cs : List α) :
    (as ++ bs ++ cs).eraseDups = (as ++ cs).eraseDups := by
  have hbs : bs.removeAll as = [] := by
    simp only [List.removeAll, List.filter_eq_nil_iff, List.elem_eq_mem, Bool.not_eq_true',
      decide_eq_false_iff_not, not_not]
    exact fun b hb => h hb
  have hcs : cs.removeAll (as ++ bs) = cs.removeAll as := by
    refine List.filter_congr fun c _ => ?_
    have hc : c ∈ as ++ bs ↔ c ∈ as :=
      List.mem_append.trans (or_iff_left_of_imp fun hb => h hb)
    simp only [List.elem_eq_mem, hc]
  rw [List.eraseDups_append, List.eraseDups_append, hbs, hcs, List.eraseDups_nil, List.append_nil,
    ← List.eraseDups_append]

theorem eraseDups_of_nodup {l : List α} (h : l.Nodup) : l.eraseDups = l := by
  induction l with
  | nil => rfl
  | cons a as ih =>
      obtain ⟨ha, has⟩ := List.nodup_cons.1 h
      have hfilter : as.filter (fun b => !b == a) = as := by
        refine List.filter_eq_self.2 fun b hb => ?_
        have hne : b ≠ a := fun h => ha (h ▸ hb)
        simpa using hne
      rw [List.eraseDups_cons, hfilter, ih has]

theorem eraseDups_concat {as : List α} {a : α} (h : a ∉ as) :
    (as ++ [a]).eraseDups = as.eraseDups ++ [a] := by
  have hone : [a].removeAll as = [a] := by simp [List.removeAll, h]
  rw [List.eraseDups_append, hone, eraseDups_of_nodup (List.nodup_singleton a)]

end GlyphField
