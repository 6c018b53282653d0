import Mathlib.Data.UInt
import Mathlib.Tactic.Ring

/-!
# Little-endian words in a byte array

A byte array is a function from offsets to bytes. `readLE` and `writeLE` are the loads and
stores of an integer of `w` bytes at an offset, `readWords` and `writeWords` those of an array
of such integers.
-/

namespace Xv6.Lib

/-- The integer stored in the `w` bytes from offset `off`, least significant byte first. -/
def readLE (m : Nat → UInt8) (off : Nat) : Nat → Nat
  | 0 => 0
  | w + 1 => (m off).toNat + 256 * readLE m (off + 1) w

/-- Store `v` modulo `256 ^ w` in the `w` bytes from offset `off`. -/
def writeLE (m : Nat → UInt8) (off w v : Nat) : Nat → UInt8 := fun i ↦
  if off ≤ i ∧ i < off + w then UInt8.ofNat (v / 256 ^ (i - off)) else m i

/-- A load depends on the bytes of its range only. -/
theorem readLE_congr {m m' : Nat → UInt8} {off w : Nat}
    (h : ∀ i, off ≤ i → i < off + w → m i = m' i) : readLE m off w = readLE m' off w := by
  induction w generalizing off with
  | zero => rfl
  | succ w ih =>
    have htail : readLE m (off + 1) w = readLE m' (off + 1) w := by
      apply ih
      intro i hlo hhi
      exact h i (by omega) (by omega)
    simp only [readLE, htail, h off (le_refl off) (by omega)]

theorem readLE_zero (off w : Nat) : readLE (fun _ ↦ 0) off w = 0 := by
  induction w generalizing off with
  | zero => rfl
  | succ w ih =>
    rw [readLE, ih]
    rfl

theorem readLE_lt (m : Nat → UInt8) (off w : Nat) : readLE m off w < 256 ^ w := by
  induction w generalizing off with
  | zero => simp [readLE]
  | succ w ih =>
    have hb := (m off).toNat_lt
    have htail := ih (off + 1)
    simp only [readLE, pow_succ]
    omega

/-- A load of what was just stored, when it fits. -/
theorem readLE_writeLE {v w : Nat} (m : Nat → UInt8) (off : Nat) (hv : v < 256 ^ w) :
    readLE (writeLE m off w v) off w = v := by
  induction w generalizing m off v with
  | zero =>
    simp only [pow_zero] at hv
    simp only [readLE]
    omega
  | succ w ih =>
    have hdiv : v / 256 < 256 ^ w := by
      rw [pow_succ] at hv
      omega
    -- the other bytes hold the digits of `v / 256`
    have htail : readLE (writeLE m off (w + 1) v) (off + 1) w = v / 256 := by
      rw [← ih m (off + 1) hdiv]
      apply readLE_congr
      intro i hlo hhi
      have hexp : 256 ^ (i - off) = 256 * 256 ^ (i - (off + 1)) := by
        rw [← pow_succ']
        congr 1
        omega
      simp only [writeLE, if_pos (show off ≤ i ∧ i < off + (w + 1) by omega),
        if_pos (show off + 1 ≤ i ∧ i < off + 1 + w by omega), hexp, Nat.div_div_eq_div_mul]
    have hhead : (writeLE m off (w + 1) v off).toNat = v % 256 := by
      simp [writeLE]
    rw [readLE, htail, hhead]
    omega

/-- A load from bytes that a store does not touch. -/
theorem readLE_writeLE_of_disjoint {off w off' w' : Nat} (m : Nat → UInt8) (v : Nat)
    (h : off' + w' ≤ off ∨ off + w ≤ off') :
    readLE (writeLE m off w v) off' w' = readLE m off' w' := by
  apply readLE_congr
  intro i hlo hhi
  rw [writeLE, if_neg (by omega)]

/-- A store leaves the other bytes alone. -/
theorem writeLE_apply_of_notMem {off w i : Nat} (m : Nat → UInt8) (v : Nat)
    (h : i < off ∨ off + w ≤ i) : writeLE m off w v i = m i := by
  rw [writeLE, if_neg (by omega)]

/-- The `n` integers of `w` bytes from offset `off`. -/
def readWords (m : Nat → UInt8) (w off : Nat) : Nat → List Nat
  | 0 => []
  | n + 1 => readLE m off w :: readWords m w (off + w) n

/-- Store integers of `w` bytes one after the other from offset `off`. -/
def writeWords (m : Nat → UInt8) (w off : Nat) : List Nat → Nat → UInt8
  | [] => m
  | v :: vs => writeWords (writeLE m off w v) w (off + w) vs

/-- Loading an array depends on the bytes of its range only. -/
theorem readWords_congr {m m' : Nat → UInt8} {w off n : Nat}
    (h : ∀ i, off ≤ i → i < off + w * n → m i = m' i) :
    readWords m w off n = readWords m' w off n := by
  induction n generalizing off with
  | zero => rfl
  | succ n ih =>
    rw [Nat.mul_succ] at h
    have hhead : readLE m off w = readLE m' off w := by
      apply readLE_congr
      intro i hlo hhi
      exact h i hlo (by omega)
    rw [readWords, readWords, hhead, ih]
    intro i hlo hhi
    exact h i (by omega) (by omega)

/-- Storing an array leaves the other bytes alone. -/
theorem writeWords_apply_of_notMem {off w i : Nat} (m : Nat → UInt8) (vs : List Nat)
    (h : i < off ∨ off + w * vs.length ≤ i) : writeWords m w off vs i = m i := by
  induction vs generalizing m off with
  | nil => rfl
  | cons v vs ih =>
    rw [List.length_cons, Nat.mul_succ] at h
    rw [writeWords, ih _ (by omega)]
    exact writeLE_apply_of_notMem m v (by omega)

/-- A load below the array that a store fills. -/
theorem readLE_writeWords {off w off' w' : Nat} (m : Nat → UInt8) (vs : List Nat)
    (h : off' + w' ≤ off) : readLE (writeWords m w off vs) off' w' = readLE m off' w' := by
  induction vs generalizing m off with
  | nil => rfl
  | cons v vs ih =>
    rw [writeWords, ih _ (by omega)]
    exact readLE_writeLE_of_disjoint m v (Or.inl h)

/-- Loading one element of an array that was just stored. -/
theorem readLE_writeWords_get {off w i : Nat} {vs : List Nat} (m : Nat → UInt8)
    (hi : i < vs.length) (hv : vs[i] < 256 ^ w) :
    readLE (writeWords m w off vs) (off + w * i) w = vs[i] := by
  induction vs generalizing m off i with
  | nil => cases hi
  | cons v vs ih =>
    cases i with
    | zero =>
      rw [writeWords, Nat.mul_zero, Nat.add_zero, readLE_writeWords _ _ (le_refl _)]
      exact readLE_writeLE m off hv
    | succ i =>
      have hoff : off + w * (i + 1) = off + w + w * i := by
        rw [Nat.mul_succ]
        omega
      rw [writeWords, hoff]
      exact ih _ (by simpa using hi) hv

/-- Loading an array that was just stored. -/
theorem readWords_writeWords {w : Nat} {vs : List Nat} (m : Nat → UInt8) (off : Nat)
    (h : ∀ v ∈ vs, v < 256 ^ w) : readWords (writeWords m w off vs) w off vs.length = vs := by
  induction vs generalizing m off with
  | nil => rfl
  | cons v vs ih =>
    have hhead : readLE (writeWords m w off (v :: vs)) off w = v := by
      rw [writeWords, readLE_writeWords _ _ (le_refl _)]
      exact readLE_writeLE m off (h v List.mem_cons_self)
    rw [List.length_cons, readWords, hhead, writeWords]
    congr 1
    exact ih _ _ (fun u hu ↦ h u (List.mem_cons_of_mem v hu))

end Xv6.Lib
