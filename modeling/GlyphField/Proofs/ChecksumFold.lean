import GlyphField.Substrate.Checksum

/-!
# GlyphField.Proofs.ChecksumFold

The laws of the checksum as a fold over cells.  Rotation only moves the bits of a word, so it
passes through sums without carry, and the fold is linear in the sum it starts from:

* `ofCells_append` — the checksum of a list in two parts, from those of the parts;
* `ofCells_set` — a replaced cell changes the checksum by the change of its word, rotated once
  for every cell behind it.
-/

namespace GlyphField.Checksum

/-! ## rotation -/

/-- Bit `i` of a rotated word is the bit `n` places below it, counted around the word. -/
theorem getLsbD_rotate (w : UInt32) (n : Nat) {i : Nat} (hi : i < 32) :
    (rotate w n).toBitVec.getLsbD i = w.toBitVec.getLsbD ((i + (32 - n % 32)) % 32) := by
  show (w.toBitVec.rotateLeft n).getLsbD i = _
  rw [BitVec.getLsbD_rotateLeft]
  have hn : n % 32 < 32 := Nat.mod_lt n (by decide)
  by_cases h : i < n % 32
  · have hidx : (i + (32 - n % 32)) % 32 = 32 - n % 32 + i := by omega
    simp [h, hidx]
  · have hidx : (i + (32 - n % 32)) % 32 = i - n % 32 := by omega
    simp [h, hi, hidx]

/-- Words with the same bits are equal. -/
theorem eq_of_getLsbD {a b : UInt32}
    (h : ∀ i, i < 32 → a.toBitVec.getLsbD i = b.toBitVec.getLsbD i) : a = b :=
  UInt32.toBitVec_inj.1 (BitVec.eq_of_getLsbD_eq h)

/-- A whole turn of the bits brings the word back. -/
theorem rotate_mod (w : UInt32) (n : Nat) : rotate w (n % 32) = rotate w n :=
  congrArg UInt32.ofBitVec BitVec.rotateLeft_mod_eq_rotateLeft

@[simp] theorem rotate_zero (w : UInt32) : rotate w 0 = w := by
  apply eq_of_getLsbD
  intro i hi
  have hidx : (i + (32 - 0 % 32)) % 32 = i := by omega
  rw [getLsbD_rotate _ _ hi, hidx]

theorem rotate_xor (a b : UInt32) (n : Nat) : rotate (a ^^^ b) n = rotate a n ^^^ rotate b n := by
  apply eq_of_getLsbD
  intro i hi
  simp only [UInt32.toBitVec_xor, BitVec.getLsbD_xor, getLsbD_rotate _ _ hi]

theorem rotate_rotate (w : UInt32) (m n : Nat) : rotate (rotate w m) n = rotate w (m + n) := by
  apply eq_of_getLsbD
  intro i hi
  have hidx : ((i + (32 - n % 32)) % 32 + (32 - m % 32)) % 32 =
      (i + (32 - (m + n) % 32)) % 32 := by omega
  rw [getLsbD_rotate _ _ hi, getLsbD_rotate _ _ (Nat.mod_lt _ (by decide)),
    getLsbD_rotate _ _ hi, hidx]

/-! ## the fold -/

/-- What a sum starts from ends up rotated once for every cell. -/
theorem foldl_step_xor (cells : List Cell) (a b : UInt32) :
    cells.foldl step (a ^^^ b) = rotate a cells.length ^^^ cells.foldl step b := by
  induction cells generalizing a b with
  | nil => simp
  | cons c cs ih =>
      have hstep : step (a ^^^ b) c = rotate a 1 ^^^ step b c := by
        simp only [step, rotate_xor, UInt32.xor_assoc]
      rw [List.foldl_cons, List.foldl_cons, hstep, ih, rotate_rotate, List.length_cons,
        Nat.add_comm 1]

theorem ofCells_append (xs ys : List Cell) :
    ofCells (xs ++ ys) = rotate (ofCells xs) ys.length ^^^ ofCells ys := by
  have h := foldl_step_xor ys (ofCells xs) 0
  rw [UInt32.xor_zero] at h
  rw [ofCells, List.foldl_append]
  exact h

theorem ofCells_singleton (c : Cell) : ofCells [c] = word c := by
  have hzero : rotate 0 1 = 0 := by decide
  show rotate 0 1 ^^^ word c = word c
  rw [hzero, UInt32.zero_xor]

theorem ofCells_cons (c : Cell) (cs : List Cell) :
    ofCells (c :: cs) = rotate (word c) cs.length ^^^ ofCells cs := by
  rw [← ofCells_singleton c]
  exact ofCells_append [c] cs

/-- A replaced cell changes the checksum by the change of its word, rotated once for every cell
behind it. -/
theorem ofCells_set {cells : List Cell} {i : Nat} (h : i < cells.length) (c : Cell) :
    ofCells (cells.set i c) =
      ofCells cells ^^^ rotate (word cells[i] ^^^ word c) (cells.length - 1 - i) := by
  have hsplit : cells = cells.take i ++ cells[i] :: cells.drop (i + 1) := by simp
  have hset : cells.set i c = cells.take i ++ c :: cells.drop (i + 1) := by
    rw [List.set_eq_take_append_cons_drop, if_pos h]
  have hlen : (cells.drop (i + 1)).length = cells.length - 1 - i := by
    rw [List.length_drop]
    omega
  -- only the summand of the replaced cell differs between the two sums
  have hfront (d : Cell) : ofCells (cells.take i ++ d :: cells.drop (i + 1)) =
      rotate (ofCells (cells.take i)) (cells.length - 1 - i + 1) ^^^
        (rotate (word d) (cells.length - 1 - i) ^^^ ofCells (cells.drop (i + 1))) := by
    rw [ofCells_append, ofCells_cons, List.length_cons, hlen]
  have hcells := congrArg ofCells hsplit
  rw [hfront] at hcells
  rw [hset, hfront, hcells, rotate_xor]
  generalize rotate (ofCells (cells.take i)) _ = a
  generalize rotate (word cells[i]) _ = x
  generalize rotate (word c) _ = y
  generalize ofCells (cells.drop (i + 1)) = b
  calc a ^^^ (y ^^^ b)
      = a ^^^ (b ^^^ y) := by rw [UInt32.xor_comm y b]
    _ = a ^^^ ((x ^^^ x) ^^^ (b ^^^ y)) := by rw [UInt32.xor_self, UInt32.zero_xor]
    _ = a ^^^ (x ^^^ b) ^^^ (x ^^^ y) := by ac_rfl

end GlyphField.Checksum
