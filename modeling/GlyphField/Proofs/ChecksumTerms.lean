import GlyphField.Proofs.CleanSync
import GlyphField.Proofs.FloatTruncation
import GlyphField.Proofs.LiteralRounding

/-!
# GlyphField.Proofs.ChecksumTerms

The checksum taken apart, for lists of any length.  Each cell adds its word, rotated once for every
cell behind it; 32 rotations bring a word back, so the places of the cells count modulo 32 only.
A cell that moves by a multiple of 32 places keeps its term, and a grid in which two such cells have
changed places syncs as before.

* `thousandths_eq` — quantities with a given word;
* `exists_word` — any word is the word of some cell, so any change of a word can occur;
* `ofCells_eq_total` — the checksum as the sum of the terms;
* `ofCells_exchange` — what an exchange of two cells changes;
* `closed_form` — the terms, and what follows for cells that are appended, changed or exchanged.
-/

namespace GlyphField

open Binary64

/-! ## words -/

namespace Checksum

/-- A quantity in the lower half of a thousandth: the thousandfold may be rounded to an end of the
half, but not over it. -/
theorem thousandths_eq {x : Float} {w : UInt32} (hx : x.isFinite = true)
    (hlow : (w.toNat : ℚ) ≤ toRat x * 1000) (hhigh : toRat x * 1000 ≤ w.toNat + 1 / 2) :
    thousandths x = w := by
  have hw : w.toNat < 2 ^ 32 := w.toNat_lt
  obtain ⟨lo, hlo, hlo_value⟩ :=
    exists_toRat_eq (m := w.toNat) (e := 0) (by omega) (by decide) (by decide)
  obtain ⟨hi, hhi, hhi_value⟩ :=
    exists_toRat_eq (m := 2 * w.toNat + 1) (e := -1) (by omega) (by decide) (by decide)
  norm_num at hlo_value hhi_value
  have hround := rounds_mul hx (y := 1000) (by decide +kernel)
  rw [toRat_thousand] at hround
  have hle : lo ≤ x * 1000 := (hround lo hlo).2 (by linarith)
  have hge : x * 1000 ≤ hi := (hround hi hhi).1 (by linarith)
  have hfinite := isFinite_of_le_of_le hlo hhi hle hge
  rw [le_iff_toRat_le hlo hfinite, hlo_value] at hle
  rw [le_iff_toRat_le hfinite hhi, hhi_value] at hge
  have hfloor : ⌊toRat (x * 1000)⌋₊ = w.toNat :=
    (Nat.floor_eq_iff ((Nat.cast_nonneg _).trans hle)).2 ⟨hle, by linarith⟩
  rw [← UInt32.toNat_inj, thousandths, toNat_toUInt32 hfinite, hfloor]
  omega

theorem exists_thousandths (w : UInt32) : ∃ x, thousandths x = w := by
  have hw : w.toNat < 2 ^ 32 := w.toNat_lt
  -- half a thousandth is more than 1/2048, so a multiple of that lies in the half
  obtain ⟨m, hm⟩ : ∃ m, 2048 * w.toNat / 1000 + 1 = m := ⟨_, rfl⟩
  have hlow : 2048 * w.toNat < 1000 * m := by omega
  have hhigh : 1000 * m ≤ 2048 * w.toNat + 1000 := by omega
  have hlow : (2048 * w.toNat : ℚ) < 1000 * m := by exact_mod_cast hlow
  have hhigh : (1000 * m : ℚ) ≤ 2048 * w.toNat + 1000 := by exact_mod_cast hhigh
  obtain ⟨x, hx, hvalue⟩ := exists_toRat_eq (m := m) (e := -11) (by omega) (by decide) (by decide)
  norm_num at hvalue
  exact ⟨x, thousandths_eq hx (by linarith) (by linarith)⟩

theorem exists_word (w : UInt32) : ∃ c, word c = w := by
  obtain ⟨x, hx⟩ := exists_thousandths w
  have hzero : thousandths 0 = 0 := by decide +kernel
  refine ⟨{ magnitude := x, phase := 0, coherence := 0 }, ?_⟩
  rw [word, hx, hzero, UInt32.xor_zero, UInt32.xor_zero]

/-! ## terms -/

/-- The sum of words without carry. -/
def total (ws : List UInt32) : UInt32 := ws.foldr (· ^^^ ·) 0

@[simp] theorem total_cons (w : UInt32) (ws : List UInt32) : total (w :: ws) = w ^^^ total ws := rfl

theorem ofCells_eq_total (cells : List Cell) : ofCells cells =
    total (cells.mapIdx fun i c => rotate (word c) ((cells.length - 1 - i) % 32)) := by
  simp only [rotate_mod]
  induction cells with
  | nil => rfl
  | cons c cs ih =>
      -- a cell of the tail has one place more in front of it, and as many behind
      have hfirst : (c :: cs).length - 1 - 0 = cs.length := rfl
      have hplace (i : Nat) : (c :: cs).length - 1 - (i + 1) = cs.length - 1 - i := by
        rw [List.length_cons]
        omega
      simp only [ofCells_cons, ih, List.mapIdx_cons, total_cons, hfirst, hplace]

/-! ## exchanged cells -/

section Exchange

variable {cells : List Cell} {i j : Nat}

/-- Both places see the same change of a word. -/
theorem ofCells_exchange (hi : i < cells.length) (hj : j < cells.length) :
    ofCells ((cells.set i cells[j]).set j cells[i]) = ofCells cells ^^^
      (rotate (word cells[i] ^^^ word cells[j]) (cells.length - 1 - i) ^^^
        rotate (word cells[i] ^^^ word cells[j]) (cells.length - 1 - j)) := by
  have hj' : j < (cells.set i cells[j]).length := by rwa [List.length_set]
  have hcell : (cells.set i cells[j])[j] = cells[j] := by
    rw [List.getElem_set]
    split
    · rfl
    · rfl
  rw [ofCells_set hj', hcell, ofCells_set hi, List.length_set, UInt32.xor_comm (word cells[j]),
    UInt32.xor_assoc]

theorem ofCells_exchange_of_modEq (hi : i < cells.length) (hj : j < cells.length)
    (h : i ≡ j [MOD 32]) : ofCells ((cells.set i cells[j]).set j cells[i]) = ofCells cells := by
  have hplace : (cells.length - 1 - i) % 32 = (cells.length - 1 - j) % 32 := by
    rw [Nat.ModEq] at h
    omega
  rw [ofCells_exchange hi hj, ← rotate_mod _ (cells.length - 1 - i), hplace, rotate_mod,
    UInt32.xor_self, UInt32.xor_zero]

end Exchange

end Checksum

namespace Substrate

/-- The substrate with two cells exchanged and the checksum that it had. -/
def exchange (s : Substrate) (i j : Index) : Substrate :=
  { s with cells := s.cells.swap i.val j.val i.isLt j.isLt }

theorem checksum_exchange {i j : Index} (s : Substrate) (h : i.val ≡ j.val [MOD 32]) :
    Checksum.ofCells (s.exchange i j).cells.toList = Checksum.ofCells s.cells.toList := by
  rw [exchange, Vector.toList_swap]
  exact Checksum.ofCells_exchange_of_modEq (by simp) (by simp) h

theorem invalidCells_exchange (s : Substrate) (i j : Index) :
    (s.exchange i j).invalidCells = s.invalidCells :=
  (Vector.swap_perm i.isLt j.isLt).toList.countP_eq _

theorem sync_exchange {i j : Index} (s : Substrate) (h : i.val ≡ j.val [MOD 32]) :
    (s.exchange i j).sync = s.sync := by
  have hchecksum : (s.exchange i j).checksum = s.checksum := rfl
  rw [sync, sync, checksum_exchange s h, invalidCells_exchange, hchecksum]

end Substrate

namespace Checksum

/-- **The checksum in closed form.**  It is the sum without carry of the words of the cells, each
rotated by its distance from the last cell modulo 32.  So cells in front of others have their
checksum rotated by the number of those; a change of a word, which may be any, is rotated in the
same way as the word; and two cells may change places by a multiple of 32, which no `sync` sees. -/
theorem closed_form :
    (∀ cells : List Cell, ofCells cells =
      total (cells.mapIdx fun i c => rotate (word c) ((cells.length - 1 - i) % 32))) ∧
    (∀ front behind : List Cell, ofCells (front ++ behind) =
      rotate (ofCells front) (behind.length % 32) ^^^ ofCells behind) ∧
    (∀ (cells : List Cell) (i : Fin cells.length) (d : UInt32),
      (∃ c, word c = word cells[i] ^^^ d) ∧
      ∀ c, word c = word cells[i] ^^^ d → ofCells (cells.set i c) =
        ofCells cells ^^^ rotate d ((cells.length - 1 - i) % 32)) ∧
    (∀ (cells : List Cell) (i j : Fin cells.length), i.val ≡ j.val [MOD 32] →
      ofCells ((cells.set i cells[j]).set j cells[i]) = ofCells cells) ∧
    ∀ (s : Substrate) (i j : Index), i.val ≡ j.val [MOD 32] → (s.exchange i j).sync = s.sync := by
  refine ⟨ofCells_eq_total, fun front behind => ?_, fun cells i d => ⟨exists_word _, fun c hc => ?_⟩,
    fun cells i j h => ofCells_exchange_of_modEq i.isLt j.isLt h, fun s i j h => s.sync_exchange h⟩
  · rw [rotate_mod]
    exact ofCells_append front behind
  · have hchange : word cells[i] ^^^ word c = d := by
      rw [hc, ← UInt32.xor_assoc, UInt32.xor_self, UInt32.zero_xor]
    rw [rotate_mod, ← hchange]
    exact ofCells_set i.isLt c

/-- A changed word in front of another cell, a cell that moves past 32 places in a list, and one
that moves half a row on. -/
theorem closed_form_moved :
    (word { magnitude := 100.5 } = word Cell.neutral ^^^ 3636 ∧
      ofCells [{ magnitude := 100.5 }, Cell.neutral] =
        ofCells [Cell.neutral, Cell.neutral] ^^^ 7272) ∧
    ofCells (List.replicate 32 Cell.neutral ++ [{ magnitude := 100.5 }]) =
      ofCells ({ magnitude := 100.5 } :: List.replicate 32 Cell.neutral) ∧
    (Substrate.initial.write 5 ⟨300, 0, 500⟩).cell 5 ≠
        (Substrate.initial.write 5 ⟨300, 0, 500⟩).cell 37 ∧
      ((Substrate.initial.write 5 ⟨300, 0, 500⟩).exchange 5 37).sync = .ok () := by
  obtain ⟨-, -, hchange, hexchange, hsync⟩ := closed_form
  have hword : word { magnitude := 100.5 } = word Cell.neutral ^^^ 3636 := by decide +kernel
  have hset := (hchange [Cell.neutral, Cell.neutral] 0 3636).2 _ hword
  have hmoved := hexchange ({ magnitude := 100.5 } :: List.replicate 32 Cell.neutral) 0 32 rfl
  refine ⟨⟨hword, hset⟩, hmoved, ?_, ?_⟩
  · rw [Substrate.cell_write, Substrate.cell_write, Substrate.cell_initial,
      Substrate.cell_initial]
    decide +kernel
  · rw [hsync _ 5 37 rfl]
    exact Substrate.sync_eq_ok_iff.2 (Substrate.clean_initial.write 5 _)

end Checksum

end GlyphField
