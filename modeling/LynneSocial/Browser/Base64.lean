import LynneSocial.Common.Std
import LynneSocial.Lib.Base64
import Mathlib.Data.Int.Bitwise
import Mathlib.Data.List.TakeWhile
import Mathlib.Tactic.Ring
import Mathlib.Tactic.IntervalCases

/-!
# base64_decode

The decoder behind `screenshot`. Its accumulator is a 32-bit `int` that is never
masked; whatever is left in the high bits is shifted out or cut off. A character
is looked up with `strchr`, which also finds the terminating zero.
-/
namespace LynneSocial.Browser

/-- `std::isspace` in the C locale. -/
def isspace (c : UInt8) : Bool := c == 32 || (9 ≤ c && c ≤ 13)

def base64Chars : Str := str "ABCDEFGHIJKLMNOPQRSTUVWXYZabcdefghijklmnopqrstuvwxyz0123456789+/"

/-- `strchr(BASE64_CHARS, c) - BASE64_CHARS`: the array ends with a zero. -/
def strchr (c : UInt8) : Option ℕ := (base64Chars ++ [0]).idxOf? c

/-- The loop over the characters, with what it appends to `out`. -/
def base64Loop (val : BitVec 32) (bits : ℤ) : Str → Str
  | [] => []
  | c :: cs =>
    if c = 61 then []
    else match strchr c with
      | none => base64Loop val bits cs
      | some p =>
        let val := val <<< 6 ||| BitVec.ofNat 32 p
        let bits := bits + 6
        if 0 ≤ bits then
          UInt8.ofBitVec ((val.sshiftRight bits.toNat &&& 0xFF#32).setWidth 8) ::
            base64Loop val (bits - 8) cs
        else base64Loop val bits cs

def base64Decode (input : Str) : Str := base64Loop 0 (-8) (input.filter fun c => !isspace c)

/-- `(val << 6) | x` without wrapping. The terminating zero has the index 64, whose one bit lies
on the lowest bit of what was there. -/
def push (v x : ℕ) : ℕ := if x < 64 then 64 * v + x else 64 * (2 * (v / 2) + 1)

/-- The loop from an accumulator of which the lowest `r` bits are still to come out. -/
def emit (v r : ℕ) : List ℕ → Str
  | [] => []
  | x :: xs =>
    if 2 ≤ r then UInt8.ofNat (push v x / 2 ^ (r - 2)) :: emit (push v x) (r - 2) xs
    else emit (push v x) (r + 6) xs

theorem emit_give {v r x : ℕ} (h : 2 ≤ r) (xs : List ℕ) :
    emit v r (x :: xs) = UInt8.ofNat (push v x / 2 ^ (r - 2)) :: emit (push v x) (r - 2) xs := if_pos h

theorem emit_keep {v r x : ℕ} (h : ¬ 2 ≤ r) (xs : List ℕ) :
    emit v r (x :: xs) = emit (push v x) (r + 6) xs := if_neg h

/-- What the loop looks at: the indices of the characters it does not skip. -/
def symbols (cs : Str) : List ℕ := (cs.takeWhile (· ≠ 61)).filterMap strchr

theorem or_one (v : ℕ) : v ||| 1 = 2 * (v / 2) + 1 := by
  have h := Nat.two_pow_add_eq_or_of_lt (i := 1) (b := 1) (by omega) (v / 2)
  rw [pow_one] at h
  rw [h]
  apply Nat.eq_of_testBit_eq
  intro i
  cases i with
  | zero => simp
  | succ i =>
      rw [Nat.testBit_or, Nat.testBit_or, Nat.testBit_succ v, Nat.testBit_succ (2 * (v / 2))]
      congr 2
      omega

theorem or_64 (v : ℕ) : 64 * v ||| 64 = 64 * (2 * (v / 2) + 1) := by
  have hshift : 64 * v ||| 64 = (v ||| 1) <<< 6 := by
    rw [Nat.shiftLeft_or_distrib, Nat.shiftLeft_eq, Nat.shiftLeft_eq, Nat.mul_comm]
  rw [hshift, or_one, Nat.shiftLeft_eq, Nat.mul_comm]

theorem or_push {v x : ℕ} (hx : x ≤ 64) : 64 * v ||| x = push v x := by
  unfold push
  split
  · exact (Nat.two_pow_add_eq_or_of_lt (i := 6) (by omega) v).symm
  · obtain rfl : x = 64 := by omega
    exact or_64 v

theorem toNat_push {w : BitVec 32} {v x : ℕ} (hw : w.toNat = v % 2 ^ 32) (hx : x ≤ 64) :
    (w <<< 6 ||| BitVec.ofNat 32 x).toNat = push v x % 2 ^ 32 := by
  have hmod : ∀ a : ℕ, (a ||| x) % 2 ^ 32 = a % 2 ^ 32 ||| x := fun a => by
    rw [Nat.or_mod_two_pow, Nat.mod_eq_of_lt (a := x) (by omega)]
  rw [BitVec.toNat_or, BitVec.toNat_shiftLeft, BitVec.toNat_ofNat, Nat.mod_eq_of_lt (a := x) (by omega),
    ← or_push hx, hmod, hw, Nat.shiftLeft_eq]
  congr 1
  omega

/-- The byte that is cut out does not depend on the sign. -/
theorem byte_eq (w : BitVec 32) {k : ℕ} (hk : k ≤ 24) :
    UInt8.ofBitVec ((w.sshiftRight k &&& 0xFF#32).setWidth 8) = UInt8.ofNat (w.toNat / 2 ^ k) := by
  apply UInt8.toBitVec_inj.mp
  apply BitVec.eq_of_getLsbD_eq
  intro i hi
  have hki : k + i < 32 := by omega
  have hff : (255#32).getLsbD i = true := by
    interval_cases i <;> rfl
  rw [BitVec.getLsbD_setWidth, BitVec.getLsbD_and, BitVec.getLsbD_sshiftRight, hff]
  simp only [hi, decide_true, Bool.true_and, Bool.and_true]
  rw [UInt8.toBitVec_ofNat', BitVec.getLsbD_ofNat, Nat.testBit_div_two_pow]
  simp [BitVec.getLsbD, hki, hi, Nat.add_comm, show ¬ 32 ≤ i by omega]

theorem ofNat_wrapped (v : ℕ) {k : ℕ} (hk : k ≤ 24) :
    UInt8.ofNat (v % 2 ^ 32 / 2 ^ k) = UInt8.ofNat (v / 2 ^ k) := by
  apply UInt8.toNat_inj.mp
  have hsplit : 2 ^ 32 = 2 ^ k * 2 ^ (32 - k) := by rw [← pow_add, Nat.add_sub_cancel' (by omega)]
  have hdvd : 2 ^ 8 ∣ 2 ^ (32 - k) := pow_dvd_pow 2 (by omega)
  rw [UInt8.toNat_ofNat', UInt8.toNat_ofNat', hsplit, Nat.mod_mul_right_div_self,
    Nat.mod_mod_of_dvd _ hdvd]

theorem base64Chars_length : base64Chars.length = 64 := rfl

theorem strchr_le {c : UInt8} {p : ℕ} (h : strchr c = some p) : p ≤ 64 := by
  obtain ⟨hlt, -⟩ := List.idxOf?_eq_some_iff.mp h
  rw [List.length_append, base64Chars_length, List.length_singleton] at hlt
  omega

/-- The loop computes with the accumulator as if it did not wrap. -/
theorem loop_emit {w : BitVec 32} {v r : ℕ} (hw : w.toNat = v % 2 ^ 32) (hr : r < 8) (cs : Str) :
    base64Loop w (r - 8) cs = emit v r (symbols cs) := by
  induction cs generalizing w v r with
  | nil => rfl
  | cons c cs ih =>
      by_cases hc : c = 61
      · simp [base64Loop, symbols, hc, emit]
      · cases hp : strchr c with
        | none =>
            have hskip : symbols (c :: cs) = symbols cs := by simp [symbols, hc, hp]
            simp only [base64Loop, hc, if_false, hp, hskip]
            exact ih hw hr
        | some p =>
            have htake : symbols (c :: cs) = p :: symbols cs := by simp [symbols, hc, hp]
            have hpush := toNat_push hw (strchr_le hp)
            simp only [base64Loop, hc, if_false, hp, htake, emit]
            by_cases h2 : 2 ≤ r
            · have hk : ((r : ℤ) - 8 + 6).toNat = r - 2 := by omega
              have hbits : (r : ℤ) - 8 + 6 - 8 = ((r - 2 : ℕ) : ℤ) - 8 := by omega
              rw [if_pos (by omega), if_pos h2, hk, hbits, byte_eq _ (by omega), hpush,
                ofNat_wrapped _ (by omega), ih hpush (by omega)]
            · have hbits : (r : ℤ) - 8 + 6 = ((r + 6 : ℕ) : ℤ) - 8 := by omega
              rw [if_neg (by omega), if_neg h2, hbits, ih hpush (by omega)]

theorem base64Decode_eq (s : Str) :
    base64Decode s = emit 0 0 (symbols (s.filter fun c => !isspace c)) :=
  loop_emit (r := 0) rfl (by omega) _

theorem push_digit {v x : ℕ} (hx : x < 64) : push v x = 64 * v + x := if_pos hx

theorem ofNat_congr {a b : ℕ} (h : a % 256 = b % 256) : UInt8.ofNat a = UInt8.ofNat b := by
  apply UInt8.toNat_inj.mp
  rw [UInt8.toNat_ofNat', UInt8.toNat_ofNat']
  exact h

theorem emit_block (v : ℕ) {a b c d : ℕ} (ha : a < 64) (hb : b < 64) (hc : c < 64) (hd : d < 64)
    (xs : List ℕ) : ∃ w, emit v 0 (a :: b :: c :: d :: xs) =
      UInt8.ofNat (4 * a + b / 16) :: UInt8.ofNat (b % 16 * 16 + c / 4) ::
        UInt8.ofNat (c % 4 * 64 + d) :: emit w 0 xs := by
  refine ⟨64 * (64 * (64 * (64 * v + a) + b) + c) + d, ?_⟩
  simp only [emit, push_digit, ha, hb, hc, hd, Nat.reduceLeDiff, Nat.reduceSub, Nat.reduceAdd,
    Nat.reducePow, Nat.div_one, if_true, if_false, List.cons.injEq, and_true]
  refine ⟨ofNat_congr (by omega), ofNat_congr (by omega), ofNat_congr (by omega)⟩

theorem emit_sextets (v : ℕ) (bytes : Str) : emit v 0 (Base64.sextets bytes) = bytes := by
  induction bytes using Base64.sextets.induct generalizing v with
  | case1 => rfl
  | case2 a =>
      have ha := a.toNat_lt
      simp only [Base64.sextets, emit, push_digit (show a.toNat / 4 < 64 by omega),
        push_digit (show a.toNat % 4 * 16 < 64 by omega), Nat.reduceLeDiff, Nat.reduceSub, Nat.reduceAdd,
        Nat.reducePow, if_true, if_false, List.cons.injEq, and_true]
      refine (ofNat_congr ?_).trans a.ofNat_toNat
      omega
  | case3 a b =>
      have ha := a.toNat_lt
      have hb := b.toNat_lt
      simp only [Base64.sextets, emit, push_digit (show a.toNat / 4 < 64 by omega),
        push_digit (show a.toNat % 4 * 16 + b.toNat / 16 < 64 by omega),
        push_digit (show b.toNat % 16 * 4 < 64 by omega), Nat.reduceLeDiff, Nat.reduceSub, Nat.reduceAdd,
        Nat.reducePow, if_true, if_false, List.cons.injEq, and_true]
      refine ⟨(ofNat_congr ?_).trans a.ofNat_toNat, (ofNat_congr ?_).trans b.ofNat_toNat⟩
      · omega
      · omega
  | case4 a b c rest ih =>
      have ha := a.toNat_lt
      have hb := b.toNat_lt
      have hc := c.toNat_lt
      obtain ⟨w, hw⟩ := emit_block v (a := a.toNat / 4) (b := a.toNat % 4 * 16 + b.toNat / 16)
        (c := b.toNat % 16 * 4 + c.toNat / 64) (d := c.toNat % 64) (by omega) (by omega) (by omega)
        (by omega) (Base64.sextets rest)
      simp only [Base64.sextets, List.cons_append, List.nil_append, hw, ih, List.cons.injEq, and_true]
      refine ⟨(ofNat_congr ?_).trans a.ofNat_toNat, (ofNat_congr ?_).trans b.ofNat_toNat,
        (ofNat_congr ?_).trans c.ofNat_toNat⟩
      · omega
      · omega
      · omega

theorem strchr_digit : ∀ v < 64, strchr (Base64.digit v) = some v := by decide +kernel

theorem filterMap_strchr_digits {xs : List ℕ} (h : ∀ x ∈ xs, x < 64) :
    (xs.map Base64.digit).filterMap strchr = xs := by
  induction xs with
  | nil => rfl
  | cons x xs ih =>
      rw [List.forall_mem_cons] at h
      rw [List.map_cons, List.filterMap_cons_some (strchr_digit x h.1), ih h.2]

theorem symbols_encode (padded : Bool) (bytes : Str) :
    symbols (Base64.encode padded bytes) = Base64.sextets bytes := by
  have hlt := Base64.sextets_lt bytes
  have hdigits : ∀ c ∈ (Base64.sextets bytes).map Base64.digit, decide (c ≠ 61) = true := by
    simp only [List.mem_map, decide_eq_true_eq]
    rintro c ⟨v, hv, rfl⟩
    exact Base64.digit_ne_pad v (hlt v hv)
  have hcut : (if padded then Base64.padding bytes.length else []).takeWhile (· ≠ 61) = [] := by
    split
    · cases h : (3 - bytes.length % 3) % 3 <;> simp [Base64.padding, h, List.replicate_succ, Base64.pad]
    · rfl
  rw [symbols, Base64.encode, List.takeWhile_append_of_pos hdigits, hcut, List.append_nil,
    filterMap_strchr_digits hlt]

/-- Decoding an encoding, padded or not, with white space anywhere in it, gives back the bytes. -/
theorem base64_decode_encode {padded : Bool} {bytes s : Str}
    (h : s.filter (fun c => !isspace c) = Base64.encode padded bytes) : base64Decode s = bytes := by
  rw [base64Decode_eq, h, symbols_encode, emit_sextets]

theorem base64_decode_encode_sample : base64Decode (str "  aGVs\nbG\t8=\r\n") = str "hello" :=
  base64_decode_encode (show _ = Base64.encode true (str "hello") by decide +kernel)

/-- What is decoded: up to the first `=`, and of that the characters of the alphabet. -/
def cut (s : Str) : Str := s.takeWhile (· ≠ 61)

def cleaned (s : Str) : Str := (cut s).filter (· ∈ base64Chars)

/-- The only zero before the first `=` stands where its bit and the digit it adds make no
difference: whole blocks of four without it, only `A` behind it, and before it whole blocks or an
odd digit. -/
def ZeroHarmless (s : Str) : Prop :=
  ∃ u w, cut s = u ++ 0 :: w ∧ 0 ∉ u ∧ 0 ∉ w ∧ ((cleaned u).length + (cleaned w).length) % 4 = 0 ∧
    (∀ c ∈ cleaned w, strchr c = some 0) ∧
    ((cleaned u).length % 4 = 0 ∨ ∀ c ∈ (cleaned u).getLast?, ∀ x ∈ strchr c, x % 2 = 1)

theorem length_emit (v : ℕ) {r : ℕ} (hr : r < 8) (xs : List ℕ) :
    (emit v r xs).length = (r + 6 * xs.length) / 8 := by
  induction xs generalizing v r with
  | nil =>
      simp only [emit, List.length_nil]
      omega
  | cons x xs ih =>
      simp only [emit, List.length_cons]
      split
      · rw [List.length_cons, ih _ (by omega)]
        omega
      · rw [ih _ (by omega)]
        omega

theorem ofNat_inj {a b : ℕ} (ha : a < 256) (hb : b < 256) (h : UInt8.ofNat a = UInt8.ofNat b) :
    a = b := by
  have := congrArg UInt8.toNat h
  rw [UInt8.toNat_ofNat', UInt8.toNat_ofNat'] at this
  omega

/-- Equal bytes come from equal digits. -/
theorem block_inj (v w : ℕ) (xs ys : List ℕ) {a b c d a' b' c' d' : ℕ} (ha : a < 64) (hb : b < 64)
    (hc : c < 64) (hd : d < 64) (ha' : a' < 64) (hb' : b' < 64) (hc' : c' < 64) (hd' : d' < 64) :
    ∃ v' w', (emit v 0 (a :: b :: c :: d :: xs) = emit w 0 (a' :: b' :: c' :: d' :: ys) ↔
      (a = a' ∧ b = b' ∧ c = c' ∧ d = d') ∧ emit v' 0 xs = emit w' 0 ys) := by
  obtain ⟨v', hv⟩ := emit_block v ha hb hc hd xs
  obtain ⟨w', hw⟩ := emit_block w ha' hb' hc' hd' ys
  refine ⟨v', w', ?_⟩
  rw [hv, hw]
  simp only [List.cons.injEq]
  constructor
  · rintro ⟨h₁, h₂, h₃, h⟩
    have h₁ := ofNat_inj (by omega) (by omega) h₁
    have h₂ := ofNat_inj (by omega) (by omega) h₂
    have h₃ := ofNat_inj (by omega) (by omega) h₃
    exact ⟨by omega, h⟩
  · rintro ⟨⟨rfl, rfl, rfl, rfl⟩, h⟩
    exact ⟨rfl, rfl, rfl, h⟩

/-- One digit more in front of whole blocks changes nothing if all digits are the same. -/
theorem emit_shift (v w : ℕ) {z : ℕ} (hz : z < 64) :
    ∀ xs : List ℕ, xs.length % 4 = 0 → (∀ x ∈ xs, x < 64) →
      (emit v 0 (z :: xs) = emit w 0 xs ↔ ∀ x ∈ xs, x = z)
  | [], _, _ => by simp [emit]
  | [_], h, _ | [_, _], h, _ | [_, _, _], h, _ => by simp at h
  | a :: b :: c :: d :: xs, h, hlt => by
      simp only [List.forall_mem_cons] at hlt
      obtain ⟨ha, hb, hc, hd, hxs⟩ := hlt
      obtain ⟨v', w', hiff⟩ := block_inj v w (d :: xs) xs hz ha hb hc ha hb hc hd
      have hlen : xs.length % 4 = 0 := by
        simp only [List.length_cons] at h
        omega
      rw [hiff, emit_shift v' w' hd xs hlen hxs]
      simp only [List.forall_mem_cons]
      constructor
      · rintro ⟨⟨rfl, rfl, rfl, rfl⟩, hall⟩
        exact ⟨rfl, rfl, rfl, rfl, hall⟩
      · rintro ⟨rfl, rfl, rfl, rfl, hall⟩
        exact ⟨⟨rfl, rfl, rfl, rfl⟩, hall⟩

/-- The digit with its lowest bit set. -/
def oddUp (x : ℕ) : ℕ := 2 * (x / 2) + 1

theorem oddUp_lt {x : ℕ} (hx : x < 64) : oddUp x < 64 := by
  unfold oddUp
  omega

theorem oddUp_eq_iff {x : ℕ} : oddUp x = x ↔ x % 2 = 1 := by
  unfold oddUp
  omega

theorem emit_64 (v r : ℕ) (xs : List ℕ) : emit v r (64 :: xs) = emit (oddUp v) r (0 :: xs) := by
  have h : push v 64 = push (oddUp v) 0 := by simp [push, oddUp]
  simp only [emit, h]

theorem oddUp_add (v x : ℕ) : oddUp (64 * v + x) = 64 * v + oddUp x := by
  unfold oddUp
  omega

/-- Inside a block the zero is a digit 0 and sets the bit before it, which has not come out yet. -/
theorem emit_before_64 (v : ℕ) {r x : ℕ} (hr : r ≠ 2) (hx : x < 64) (b : List ℕ) :
    emit v r (x :: 64 :: b) = emit v r (oddUp x :: 0 :: b) := by
  have ho := oddUp_lt hx
  have hrest : ∀ r', emit (push v x) r' (64 :: b) = emit (push v (oddUp x)) r' (0 :: b) := fun r' => by
    rw [push_digit hx, push_digit ho, emit_64, oddUp_add]
  by_cases h2 : 2 ≤ r
  · obtain ⟨k, rfl⟩ := Nat.exists_eq_add_of_le (show 3 ≤ r by omega)
    have hpow : 2 ^ (3 + k - 2) = 2 * 2 ^ k := by
      rw [show 3 + k - 2 = k + 1 by omega, pow_succ]
      ring
    have hbyte : push v x / 2 ^ (3 + k - 2) = push v (oddUp x) / 2 ^ (3 + k - 2) := by
      rw [hpow, ← Nat.div_div_eq_div_mul, ← Nat.div_div_eq_div_mul, push_digit hx, push_digit ho]
      congr 1
      unfold oddUp
      omega
    rw [emit_give h2, emit_give h2, hrest, hbyte]
  · rw [emit_keep h2, emit_keep h2, hrest]

/-- Comparing the block with the zero in it to the block without. -/
theorem emit_64_iff (v w : ℕ) : ∀ a b : List ℕ, (a.length + b.length) % 4 = 0 → (∀ x ∈ a, x < 64) →
    (∀ x ∈ b, x < 64) →
    (emit v 0 (a ++ 64 :: b) = emit w 0 (a ++ b) ↔
      (∀ x ∈ b, x = 0) ∧ (a.length % 4 = 0 ∨ ∀ x ∈ a.getLast?, x % 2 = 1))
  | [], b, hlen, _, hb => by
      have hlen : b.length % 4 = 0 := by simpa using hlen
      simp [emit_64, emit_shift _ _ (show 0 < 64 by omega) b hlen hb]
  | [x], b₁ :: b₂ :: b₃ :: b, hlen, ha, hb => by
      have hx := ha x List.mem_cons_self
      simp only [List.forall_mem_cons] at hb
      obtain ⟨h₁, h₂, h₃, hb⟩ := hb
      obtain ⟨v', w', hiff⟩ := block_inj v w (b₃ :: b) b (b := 0)
        (oddUp_lt hx) (by omega) h₁ h₂ hx h₁ h₂ h₃
      have hblocks : b.length % 4 = 0 := by
        simp only [List.length_cons, List.length_nil] at hlen
        omega
      simp only [List.cons_append, List.nil_append, emit_before_64 v (show 0 ≠ 2 by omega) hx, hiff,
        emit_shift v' w' h₃ b hblocks hb, oddUp_eq_iff, List.forall_mem_cons, List.length_cons,
        List.length_nil, List.getLast?_singleton, Option.mem_def, Option.some.injEq, forall_eq']
      constructor
      · rintro ⟨⟨hodd, rfl, rfl, rfl⟩, hall⟩
        exact ⟨⟨rfl, rfl, rfl, hall⟩, .inr hodd⟩
      · rintro ⟨⟨rfl, rfl, rfl, hall⟩, hodd⟩
        exact ⟨⟨hodd.resolve_left (by omega), rfl, rfl, rfl⟩, hall⟩
  | [x, y], b₁ :: b₂ :: b, hlen, ha, hb => by
      simp only [List.forall_mem_cons] at ha hb
      obtain ⟨hx, hy, -⟩ := ha
      obtain ⟨h₁, h₂, hb⟩ := hb
      have hzero : ∀ xs, emit v 0 (x :: y :: 64 :: xs) = emit v 0 (x :: oddUp y :: 0 :: xs) := by
        have hkeep : ∀ xs, emit v 0 (x :: xs) = emit (push v x) 6 xs := emit_keep (by omega)
        intro xs
        rw [hkeep, hkeep, emit_before_64 _ (by omega) hy]
      obtain ⟨v', w', hiff⟩ := block_inj v w (b₂ :: b) b (c := 0)
        hx (oddUp_lt hy) (by omega) h₁ hx hy h₁ h₂
      have hblocks : b.length % 4 = 0 := by
        simp only [List.length_cons, List.length_nil] at hlen
        omega
      simp only [List.cons_append, List.nil_append, hzero, hiff, emit_shift v' w' h₂ b hblocks hb,
        oddUp_eq_iff, List.forall_mem_cons, List.length_cons, List.length_nil, List.getLast?_cons_cons,
        List.getLast?_singleton, Option.mem_def, Option.some.injEq, forall_eq', true_and]
      constructor
      · rintro ⟨⟨hodd, rfl, rfl⟩, hall⟩
        exact ⟨⟨rfl, rfl, hall⟩, .inr hodd⟩
      · rintro ⟨⟨rfl, rfl, hall⟩, hodd⟩
        exact ⟨⟨hodd.resolve_left (by omega), rfl, rfl⟩, hall⟩
  | [x, y, z], b₁ :: b, hlen, ha, hb => by
      simp only [List.forall_mem_cons] at ha hb
      obtain ⟨hx, hy, hz, -⟩ := ha
      obtain ⟨h₁, hb⟩ := hb
      have hzero : ∀ xs, emit v 0 (x :: y :: z :: 64 :: xs) = emit v 0 (x :: y :: oddUp z :: 0 :: xs) := by
        have hkeep : ∀ xs, emit v 0 (x :: xs) = emit (push v x) 6 xs := emit_keep (by omega)
        have hgive : ∀ xs, emit (push v x) 6 (y :: xs) = _ := emit_give (by omega)
        intro xs
        rw [hkeep, hkeep, hgive, hgive, emit_before_64 _ (by omega) hz]
      obtain ⟨v', w', hiff⟩ := block_inj v w (b₁ :: b) b (d := 0)
        hx hy (oddUp_lt hz) (by omega) hx hy hz h₁
      have hblocks : b.length % 4 = 0 := by
        simp only [List.length_cons, List.length_nil] at hlen
        omega
      simp only [List.cons_append, List.nil_append, hzero, hiff, emit_shift v' w' h₁ b hblocks hb,
        oddUp_eq_iff, List.forall_mem_cons, List.length_cons, List.length_nil, List.getLast?_cons_cons,
        List.getLast?_singleton, Option.mem_def, Option.some.injEq, forall_eq', true_and]
      constructor
      · rintro ⟨⟨hodd, rfl⟩, hall⟩
        exact ⟨⟨rfl, hall⟩, .inr hodd⟩
      · rintro ⟨⟨rfl, hall⟩, hodd⟩
        exact ⟨⟨hodd.resolve_left (by omega), rfl⟩, hall⟩
  | [_], [], hlen, _, _ | [_], [_], hlen, _, _ | [_], [_, _], hlen, _, _ | [_, _], [], hlen, _, _
  | [_, _], [_], hlen, _, _ | [_, _, _], [], hlen, _, _ => by simp at hlen
  | x :: y :: z :: u :: a, b, hlen, ha, hb => by
      simp only [List.forall_mem_cons] at ha
      obtain ⟨hx, hy, hz, hu, ha⟩ := ha
      obtain ⟨v', w', hiff⟩ := block_inj v w (a ++ 64 :: b) (a ++ b)
        hx hy hz hu hx hy hz hu
      have hblocks : (a.length + b.length) % 4 = 0 := by
        simp only [List.length_cons] at hlen
        omega
      have hmod : (x :: y :: z :: u :: a).length % 4 = a.length % 4 := by
        simp only [List.length_cons]
        omega
      simp only [List.cons_append, hiff, emit_64_iff v' w' a b hblocks ha hb, true_and, hmod]
      cases a with
      | nil => simp
      | cons c a => simp only [List.getLast?_cons_cons]

/-- The digits come after the white space and the zero. -/
theorem base64Chars_ge : ∀ c ∈ base64Chars, 43 ≤ c.toNat := by decide +kernel

theorem zero_not_mem : (0 : UInt8) ∉ base64Chars := fun h => absurd (base64Chars_ge 0 h) (by decide)

theorem strchr_zero : strchr 0 = some 64 := rfl

theorem strchr_cases (c : UInt8) : (c ∈ base64Chars ∧ ∃ x, strchr c = some x ∧ x < 64) ∨
    (c = 0 ∧ c ∉ base64Chars ∧ strchr c = some 64) ∨ (c ≠ 0 ∧ c ∉ base64Chars ∧ strchr c = none) := by
  have hlen := base64Chars_length
  by_cases hc : c ∈ base64Chars
  · left
    refine ⟨hc, ?_⟩
    cases hx : strchr c with
    | none =>
        rw [strchr, List.idxOf?_eq_none_iff] at hx
        exact absurd (List.mem_append_left _ hc) hx
    | some x =>
        obtain ⟨hlt, heq, -⟩ := List.idxOf?_eq_some_iff.mp hx
        rw [List.length_append, hlen, List.length_singleton] at hlt
        refine ⟨x, rfl, ?_⟩
        by_contra h64
        obtain rfl : x = 64 := by omega
        rw [List.getElem_append_right hlen.le] at heq
        simp only [hlen, Nat.sub_self, List.getElem_cons_zero] at heq
        exact zero_not_mem (heq ▸ hc)
  · right
    by_cases h0 : c = 0
    · exact .inl ⟨h0, hc, h0 ▸ strchr_zero⟩
    · refine .inr ⟨h0, hc, List.idxOf?_eq_none_iff.mpr ?_⟩
      simp [hc, h0]

theorem isspace_foreign {c : UInt8} (h : isspace c = true) : c ≠ 61 ∧ strchr c = none := by
  have hspace : 9 ≤ c.toNat ∧ c.toNat ≤ 32 := by
    simp only [isspace, Bool.or_eq_true, beq_iff_eq, Bool.and_eq_true, decide_eq_true_eq,
      UInt8.le_iff_toNat_le] at h
    rcases h with rfl | ⟨h9, h13⟩
    · decide
    · exact ⟨h9, h13.trans (by decide)⟩
  refine ⟨?_, ?_⟩
  · rintro rfl
    exact absurd hspace.2 (by decide)
  · rcases strchr_cases c with ⟨hc, -⟩ | ⟨rfl, -⟩ | ⟨-, -, hnone⟩
    · have hge := base64Chars_ge c hc
      omega
    · exact absurd hspace.1 (by decide)
    · exact hnone

/-- White space is skipped by the loop in any case. -/
theorem symbols_filter (s : Str) : symbols (s.filter fun c => !isspace c) = (cut s).filterMap strchr := by
  induction s with
  | nil => rfl
  | cons c s ih =>
      cases hs : isspace c with
      | true =>
          obtain ⟨hc, hnone⟩ := isspace_foreign hs
          simp only [symbols, cut] at ih
          simpa [cut, hs, hc, hnone, symbols] using ih
      | false =>
          by_cases hc : c = 61
          · simp [symbols, cut, hc, isspace]
          · simp only [symbols, cut] at ih
            simp only [symbols, cut, hs, hc, Bool.not_false, List.filter_cons_of_pos, ne_eq,
              not_false_eq_true, decide_true, List.takeWhile_cons_of_pos, List.filterMap_cons, ih]

theorem base64Decode_cut (s : Str) : base64Decode s = emit 0 0 ((cut s).filterMap strchr) := by
  rw [base64Decode_eq, symbols_filter]

theorem cut_of {s : Str} (h : 61 ∉ s) : cut s = s := by
  refine List.takeWhile_eq_self_iff.mpr fun c hc => ?_
  simp only [decide_eq_true_eq]
  rintro rfl
  exact h hc

theorem not_mem_cut (s : Str) : 61 ∉ cut s := fun h => by
  simpa using List.mem_takeWhile_imp h

theorem filterMap_cleaned {s : Str} (h : 61 ∉ s) :
    (cleaned s).filterMap strchr = (s.filterMap strchr).filter (· < 64) := by
  rw [cleaned, cut_of h]
  induction s with
  | nil => rfl
  | cons c s ih =>
      have ih := ih fun hs => h (List.mem_cons_of_mem _ hs)
      rcases strchr_cases c with ⟨hc, x, hx, hlt⟩ | ⟨-, hc, hx⟩ | ⟨-, hc, hx⟩
      · simp [hc, hx, hlt, ih]
      · simp [hc, hx, ih]
      · simp [hc, hx, ih]

theorem length_filterMap_strchr {s : Str} (h : 61 ∉ s) :
    (s.filterMap strchr).length = (cleaned s).length + s.count 0 := by
  rw [cleaned, cut_of h]
  induction s with
  | nil => rfl
  | cons c s ih =>
      have ih := ih fun hs => h (List.mem_cons_of_mem _ hs)
      rcases strchr_cases c with ⟨hc, x, hx, -⟩ | ⟨rfl, hc, hx⟩ | ⟨h0, hc, hx⟩
      · have h0 : c ≠ 0 := by
          rintro rfl
          exact zero_not_mem hc
        simp [hc, hx, ih, h0]
        omega
      · simp [hc, hx, ih]
        omega
      · simp [hc, hx, ih, h0]

theorem cleaned_digits {s : Str} {c : UInt8} (h : c ∈ cleaned s) : ∃ x, strchr c = some x ∧ x < 64 := by
  have hc := (List.mem_filter.mp h).2
  rw [decide_eq_true_eq] at hc
  exact (strchr_cases c).elim And.right (Or.elim · (absurd hc ·.2.1) (absurd hc ·.2.1))

theorem getLast?_filterMap {s : Str} (h : ∀ c ∈ s, ∃ x, strchr c = some x) :
    (s.filterMap strchr).getLast? = s.getLast?.bind strchr := by
  induction s using List.reverseRecOn with
  | nil => rfl
  | append_singleton s c ih =>
      obtain ⟨x, hx⟩ := h c (by simp)
      simp [List.filterMap_append, hx]

theorem filterMap_lt {s : Str} (h : 0 ∉ s) : ∀ x ∈ s.filterMap strchr, x < 64 := by
  intro x hx
  obtain ⟨c, hc, hcx⟩ := List.mem_filterMap.mp hx
  rcases strchr_cases c with ⟨-, y, hy, hlt⟩ | ⟨rfl, -⟩ | ⟨-, -, hnone⟩
  · rw [hcx] at hy
    exact Option.some.inj hy ▸ hlt
  · exact absurd hc h
  · rw [hcx] at hnone
    cases hnone

/-- The part of a string without `=` and zero. -/
theorem filterMap_plain {s : Str} (h61 : 61 ∉ s) (h0 : 0 ∉ s) :
    s.filterMap strchr = (cleaned s).filterMap strchr := by
  rw [filterMap_cleaned h61, List.filter_eq_self.mpr fun x hx => by simpa using filterMap_lt h0 x hx]

/-- The law for a string whose only zero splits it into `u` and `w`. -/
theorem decode_zero_iff {u w : Str} (hu : 61 ∉ u) (hw : 61 ∉ w) (hu0 : 0 ∉ u) (hw0 : 0 ∉ w)
    (hlen : ((cleaned u).length + (cleaned w).length) % 4 = 0) :
    emit 0 0 ((u ++ 0 :: w).filterMap strchr) = emit 0 0 ((cleaned u ++ cleaned w).filterMap strchr) ↔
      (∀ c ∈ cleaned w, strchr c = some 0) ∧
        ((cleaned u).length % 4 = 0 ∨ ∀ c ∈ (cleaned u).getLast?, ∀ x ∈ strchr c, x % 2 = 1) := by
  have hlenu := length_filterMap_strchr hu
  have hlenw := length_filterMap_strchr hw
  rw [List.count_eq_zero.mpr hu0, Nat.add_zero] at hlenu
  rw [List.count_eq_zero.mpr hw0, Nat.add_zero] at hlenw
  rw [List.filterMap_append, List.filterMap_append, List.filterMap_cons_some strchr_zero, ← filterMap_plain hu hu0,
    ← filterMap_plain hw hw0, emit_64_iff 0 0 _ _ (by rwa [hlenu, hlenw]) (filterMap_lt hu0)
      (filterMap_lt hw0), hlenu, filterMap_plain hu hu0, filterMap_plain hw hw0,
    getLast?_filterMap fun c hc => (cleaned_digits hc).imp fun _ => And.left]
  refine and_congr ?_ (or_congr Iff.rfl ?_)
  · simp only [List.mem_filterMap, forall_exists_index, and_imp]
    constructor
    · intro h c hc
      obtain ⟨x, hx, -⟩ := cleaned_digits hc
      rw [hx, h x c hc hx]
    · intro h x c hc hx
      rw [h c hc] at hx
      exact (Option.some.inj hx).symm
  · simp only [Option.mem_def, Option.bind_eq_some_iff, forall_exists_index, and_imp]
    exact ⟨fun h c hc x hx => h x c hc hx, fun h x c hc hx => h c hc x hx⟩

theorem cleaned_split {s u w : Str} (h : cut s = u ++ 0 :: w) (hu : 61 ∉ u) (hw : 61 ∉ w) :
    cleaned s = cleaned u ++ cleaned w := by
  rw [cleaned, h, List.filter_append, List.filter_cons_of_neg (by simpa using zero_not_mem), cleaned, cleaned,
    cut_of hu, cut_of hw]

/-- Only the digits before the first `=` count, unless a zero stands among them. -/
theorem base64_ignores_foreign_iff (s : Str) :
    (base64Decode s = base64Decode (cleaned s) ∧
        (base64Decode s).length = 6 * (cleaned s).length / 8) ↔ 0 ∉ cut s ∨ ZeroHarmless s := by
  have h61 := not_mem_cut s
  have hcleaned : cleaned (cut s) = cleaned s := by rw [cleaned, cut_of h61, cleaned]
  have hcut : cut (cleaned s) = cleaned s := cut_of fun h => h61 (List.mem_of_mem_filter h)
  have hlen := length_filterMap_strchr h61
  rw [hcleaned] at hlen
  rw [base64Decode_cut, base64Decode_cut, hcut, length_emit 0 (by omega), hlen]
  constructor
  · rintro ⟨heq, hfloor⟩
    by_contra hno
    obtain ⟨hmem, hno⟩ := not_or.mp hno
    obtain ⟨u, w, huw⟩ := List.append_of_mem (not_not.mp hmem)
    have hcount : (cut s).count 0 = u.count 0 + w.count 0 + 1 := by
      simp [huw]
      omega
    have hu0 : 0 ∉ u := List.count_eq_zero.mp (by omega)
    have hw0 : 0 ∉ w := List.count_eq_zero.mp (by omega)
    have hu61 : 61 ∉ u := fun h => h61 (huw ▸ List.mem_append_left _ h)
    have hw61 : 61 ∉ w := fun h => h61 (huw ▸ List.mem_append_right _ (List.mem_cons_of_mem _ h))
    have hparts : cleaned s = cleaned u ++ cleaned w := cleaned_split huw hu61 hw61
    have hblocks : ((cleaned u).length + (cleaned w).length) % 4 = 0 := by
      have hwhole : 4 * (6 * (cleaned s).length / 8) = 3 * (cleaned s).length := by omega
      rw [hparts, List.length_append] at hwhole
      omega
    rw [huw, hparts] at heq
    exact hno ⟨u, w, huw, hu0, hw0, hblocks, (decode_zero_iff hu61 hw61 hu0 hw0 hblocks).mp heq⟩
  · rintro (h0 | ⟨u, w, huw, hu0, hw0, hblocks, hrest⟩)
    · rw [List.count_eq_zero.mpr h0]
      refine ⟨?_, by omega⟩
      rw [filterMap_plain h61 h0, hcleaned]
    · have hu61 : 61 ∉ u := fun h => h61 (huw ▸ List.mem_append_left _ h)
      have hw61 : 61 ∉ w := fun h => h61 (huw ▸ List.mem_append_right _ (List.mem_cons_of_mem _ h))
      have hparts : cleaned s = cleaned u ++ cleaned w := cleaned_split huw hu61 hw61
      have hcount : (cut s).count 0 = 1 := by
        simp [huw, List.count_eq_zero.mpr hu0, List.count_eq_zero.mpr hw0]
      rw [hcount, huw, hparts, List.length_append]
      exact ⟨(decode_zero_iff hu61 hw61 hu0 hw0 hblocks).mpr hrest, by omega⟩

/-- `A`, a zero, `AA`: three bytes come out where the three characters hold two. -/
theorem base64_zero_counts : ¬ ∀ s : Str, base64Decode s = base64Decode (cleaned s) ∧
    (base64Decode s).length = 6 * (cleaned s).length / 8 := by
  intro h
  have hlen := (h [65, 0, 65, 65]).2
  revert hlen
  decide +kernel

/-- What `val << 6` and then `val` are in each round, as mathematical integers. -/
def base64Vals (val : ℤ) : Str → List ℤ
  | [] => []
  | c :: cs =>
    if c = 61 then []
    else match strchr c with
      | none => base64Vals val cs
      | some p =>
        let shifted := val <<< (6 : ℕ)
        let val := Int.lor shifted p
        shifted :: val :: base64Vals val cs

/-- The characters the loop looks up with success, from the first one that is not `A`. -/
def significant (input : Str) : Str :=
  ((cut input).filter fun c => (strchr c).isSome).dropWhile (· = 65)

/-- Thirty-one bits hold five characters, or six of which the first is `B`. -/
def FitsInt (input : Str) : Prop :=
  (significant input).length ≤ 5 ∨ (significant input).length = 6 ∧ (significant input).head? = some 66

instance (input : Str) : Decidable (FitsInt input) := inferInstanceAs (Decidable (_ ∨ _))

/-- The same values over the indices. -/
def vals (v : ℕ) : List ℕ → List ℕ
  | [] => []
  | x :: xs => 64 * v :: push v x :: vals (push v x) xs

theorem base64Vals_eq (v : ℕ) (cs : Str) :
    base64Vals v cs = (vals v (symbols cs)).map (Nat.cast : ℕ → ℤ) := by
  induction cs generalizing v with
  | nil => rfl
  | cons c cs ih =>
      by_cases hc : c = 61
      · simp [base64Vals, symbols, hc, vals]
      · cases hp : strchr c with
        | none =>
            have hskip : symbols (c :: cs) = symbols cs := by simp [symbols, hc, hp]
            simp only [base64Vals, hc, if_false, hp, hskip]
            exact ih v
        | some p =>
            have htake : symbols (c :: cs) = p :: symbols cs := by simp [symbols, hc, hp]
            have hshift : (v : ℤ) <<< (6 : ℕ) = ((64 * v : ℕ) : ℤ) := by
              rw [← Int.natCast_shiftLeft, Nat.shiftLeft_eq, Nat.mul_comm]
            have hor : Int.lor ((64 * v : ℕ) : ℤ) (p : ℤ) = (push v p : ℕ) := by
              rw [← or_push (strchr_le hp)]
              rfl
            simp only [base64Vals, hc, if_false, hp, htake, hshift, hor, vals, List.map_cons, ih]

theorem mul_le_push (v x : ℕ) : 64 * v ≤ push v x := by
  unfold push
  split <;> omega

theorem push_lt {v x b : ℕ} (hv : v < 2 * b) (hx : x ≤ 64) : push v x < 2 * (64 * b) := by
  unfold push
  split <;> omega

theorem push_zero {x : ℕ} (hx : x ≤ 64) : push 0 x = x := by
  unfold push
  split <;> omega

/-- The values grow, so the last one decides. -/
theorem vals_lt_iff {v b : ℕ} (hv : v < b) (xs : List ℕ) :
    (∀ y ∈ vals v xs, y < b) ↔ xs.foldl push v < b := by
  have hgrow : ∀ (xs : List ℕ) (v : ℕ), v ≤ xs.foldl push v := by
    intro xs
    induction xs with
    | nil => exact fun v => le_rfl
    | cons x xs ih =>
        intro v
        have hx := mul_le_push v x
        exact (show v ≤ push v x by omega).trans (ih (push v x))
  induction xs generalizing v with
  | nil => simpa [vals] using hv
  | cons x xs ih =>
      simp only [vals, List.forall_mem_cons, List.foldl_cons]
      have hx := mul_le_push v x
      have hlast := hgrow xs (push v x)
      constructor
      · rintro ⟨-, hpush, hrest⟩
        exact (ih hpush).mp hrest
      · intro h
        have hpush : push v x < b := hlast.trans_lt h
        exact ⟨hx.trans_lt hpush, hpush, (ih hpush).mpr h⟩

theorem foldl_push_zeros (xs : List ℕ) :
    xs.foldl push 0 = (xs.dropWhile (· = 0)).foldl push 0 := by
  induction xs with
  | nil => rfl
  | cons x xs ih =>
      by_cases hx : x = 0
      · subst hx
        rw [List.dropWhile_cons_of_pos (by simp), ← ih, List.foldl_cons, push_zero (Nat.zero_le 64)]
      · rw [List.dropWhile_cons_of_neg (by simpa using hx)]

/-- Every further character takes six bits. -/
theorem foldl_push_bounds {v b : ℕ} (hv : v < 2 * b) {xs : List ℕ} (hxs : ∀ x ∈ xs, x ≤ 64) :
    64 ^ xs.length * v ≤ xs.foldl push v ∧ xs.foldl push v < 2 * (64 ^ xs.length * b) := by
  induction xs generalizing v b with
  | nil => simpa using hv
  | cons x xs ih =>
      rw [List.forall_mem_cons] at hxs
      obtain ⟨hlow, hhigh⟩ := ih (push_lt hv hxs.1) hxs.2
      rw [List.foldl_cons, List.length_cons, pow_succ]
      constructor
      · calc
          64 ^ xs.length * 64 * v = 64 ^ xs.length * (64 * v) := Nat.mul_assoc ..
          _ ≤ 64 ^ xs.length * push v x := Nat.mul_le_mul_left _ (mul_le_push v x)
          _ ≤ xs.foldl push (push v x) := hlow
      · rwa [Nat.mul_assoc (64 ^ xs.length)]

theorem foldl_push_lt_iff {x : ℕ} {xs : List ℕ} (h0 : x ≠ 0) (hxs : ∀ y ∈ x :: xs, y ≤ 64) :
    (x :: xs).foldl push 0 < 2 ^ 31 ↔ xs.length ≤ 4 ∨ xs.length = 5 ∧ x = 1 := by
  rw [List.forall_mem_cons] at hxs
  rw [List.foldl_cons, push_zero hxs.1]
  have hwide := (foldl_push_bounds (v := x) (b := 33) (by omega) hxs.2).2
  have hlow := (foldl_push_bounds (v := x) (b := 33) (by omega) hxs.2).1
  have hpow : ∀ {m n : ℕ}, m ≤ n → 64 ^ m ≤ 64 ^ n := fun h => Nat.pow_le_pow_right (by omega) h
  constructor
  · intro h
    by_contra hno
    obtain ⟨hlen, hone⟩ := not_or.mp hno
    by_cases h5 : xs.length = 5
    · rw [h5] at hlow
      omega
    · have := hpow (show 6 ≤ xs.length by omega)
      have hx : 64 ^ xs.length * 1 ≤ 64 ^ xs.length * x := Nat.mul_le_mul_left _ (by omega)
      omega
  · rintro (hlen | ⟨hlen, rfl⟩)
    · have := hpow hlen
      omega
    · have htight := (foldl_push_bounds (v := 1) (b := 1) (by omega) hxs.2).2
      rw [hlen] at htight
      omega

theorem strchr_getElem? {c : UInt8} {x : ℕ} (h : strchr c = some x) :
    (base64Chars ++ [0])[x]? = some c := by
  obtain ⟨hlt, heq, -⟩ := List.idxOf?_eq_some_iff.mp h
  rw [List.getElem?_eq_getElem hlt, heq]

theorem strchr_zero_iff {c : UInt8} {x : ℕ} (h : strchr c = some x) : x = 0 ↔ c = 65 := by
  constructor
  · rintro rfl
    exact (Option.some.inj (strchr_getElem? h)).symm
  · rintro rfl
    exact (Option.some.inj h).symm

theorem strchr_one_iff {c : UInt8} {x : ℕ} (h : strchr c = some x) : x = 1 ↔ c = 66 := by
  constructor
  · rintro rfl
    exact (Option.some.inj (strchr_getElem? h)).symm
  · rintro rfl
    exact (Option.some.inj h).symm

/-- The indices without the leading zeros are those of the significant characters. -/
theorem significant_indices (input : Str) :
    (symbols (input.filter fun c => !isspace c)).dropWhile (· = 0) = (significant input).filterMap strchr := by
  rw [symbols_filter, significant]
  induction cut input with
  | nil => rfl
  | cons c cs ih =>
      cases hc : strchr c with
      | none =>
          rw [List.filterMap_cons_none hc, List.filter_cons_of_neg (by simp [hc])]
          exact ih
      | some x =>
          rw [List.filterMap_cons_some hc, List.filter_cons_of_pos (by simp [hc])]
          by_cases h0 : x = 0
          · rw [List.dropWhile_cons_of_pos (by simpa using h0),
              List.dropWhile_cons_of_pos (by simpa using (strchr_zero_iff hc).mp h0)]
            exact ih
          · rw [List.dropWhile_cons_of_neg (by simpa using h0),
              List.dropWhile_cons_of_neg (by simpa using mt (strchr_zero_iff hc).mpr h0),
              List.filterMap_cons_some hc]
            congr 1
            rw [List.filterMap_filter]
            refine List.filterMap_congr fun d _ => ?_
            cases strchr d <;> rfl

/-- No shift of `val` overflows, and none has a negative operand, exactly when at most thirty-one
significant bits are read. -/
theorem base64_vals_fit_iff (input : Str) :
    (∀ v ∈ base64Vals 0 (input.filter fun c => !isspace c), 0 ≤ v ∧ v < 2 ^ 31) ↔ FitsInt input := by
  have hcast : (∀ v ∈ base64Vals 0 (input.filter fun c => !isspace c), 0 ≤ v ∧ v < 2 ^ 31) ↔
      ∀ v ∈ vals 0 (symbols (input.filter fun c => !isspace c)), v < 2 ^ 31 := by
    rw [show (0 : ℤ) = ((0 : ℕ) : ℤ) from rfl, base64Vals_eq]
    simp only [List.forall_mem_map]
    refine forall₂_congr fun v _ => ?_
    omega
  have hsome : ∀ c ∈ significant input, (strchr c).isSome = true := fun c hc =>
    (List.mem_filter.mp (List.dropWhile_sublist _ |>.subset hc)).2
  have hfirst : ∀ c ∈ (significant input).head?, c ≠ 65 := by
    intro c hc h
    have := List.head?_dropWhile_not (· = 65) ((cut input).filter fun c => (strchr c).isSome)
    rw [← significant, hc] at this
    simp [h] at this
  rw [hcast, vals_lt_iff (by omega), foldl_push_zeros, significant_indices, FitsInt]
  cases hs : significant input with
  | nil => simp
  | cons c cs =>
      rw [hs] at hsome hfirst
      rw [List.forall_mem_cons] at hsome
      obtain ⟨x, hx⟩ := Option.isSome_iff_exists.mp hsome.1
      have hlen : (cs.filterMap strchr).length = cs.length := List.filterMap_length_eq_length.mpr hsome.2
      have hle : ∀ y ∈ x :: cs.filterMap strchr, y ≤ 64 := by
        intro y hy
        rw [← List.filterMap_cons_some hx] at hy
        obtain ⟨d, -, hd⟩ := List.mem_filterMap.mp hy
        exact strchr_le hd
      rw [List.filterMap_cons_some hx, foldl_push_lt_iff (mt (strchr_zero_iff hx).mp (hfirst c rfl)) hle, hlen,
        strchr_one_iff hx]
      change _ ↔ cs.length + 1 ≤ 4 + 1 ∨ cs.length + 1 = 5 + 1 ∧ some c = some 66
      rw [Nat.add_le_add_iff_right, Nat.add_right_cancel_iff, Option.some_inj]

/-- The beginning of every encoded PNG. -/
theorem base64_vals_overflow : ¬ ∀ input : Str,
    ∀ v ∈ base64Vals 0 (input.filter fun c => !isspace c), 0 ≤ v ∧ v < 2 ^ 31 := by
  intro h
  have hpng := h (str "iVBORw0KGgo=")
  revert hpng
  decide +kernel

end LynneSocial.Browser
