import Mathlib.Data.List.Perm.Basic
import Mathlib.Order.Lattice

/-!
# Binary heaps

A binary heap that is a complete tree, with its nodes listed row by row. A node
is put in at the first free place of the bottom row and walks up; a node that is
taken out is replaced by the last one, which walks down and then up. The
comparison is a function of its own; it agrees with the order of the keys.

Two nodes may have one key. What is least is then not one node, but its key is.
-/
namespace MinHeap

variable {α κ : Type}

def parent (i : ℕ) : ℕ := (i - 1) / 2

def swap (xs : List α) (i j : ℕ) : List α :=
  match xs[i]?, xs[j]? with
  | some x, some y => (xs.set i y).set j x
  | _, _ => xs

/-- The way from the root to the place with number `n`, where the root has number 1: how long it is,
and the turns as the bits of a number, the first one lowest. -/
def path : ℕ → ℕ → ℕ → ℕ → ℕ × ℕ
  | 0, way, k, _ => (way, k)
  | fuel + 1, way, k, n => if 2 ≤ n then path fuel (way * 2 + n % 2) (k + 1) (n / 2) else (way, k)

/-- Where a way leads. -/
def follow : ℕ → ℕ → ℕ → ℕ
  | _, 0, n => n
  | way, k + 1, n => follow (way / 2) k (2 * n + way % 2)

/-- The index of the last place of a tree with `n` nodes. -/
def lastPlace (n : ℕ) : ℕ :=
  let p := path n 0 0 n
  follow p.1 p.2 1 - 1

theorem follow_path (fuel way k n : ℕ) (hn : 0 < n) (hf : n ≤ fuel) :
    follow (path fuel way k n).1 (path fuel way k n).2 1 = follow way k n := by
  induction fuel generalizing way k n with
  | zero => omega
  | succ fuel ih =>
      rw [path]
      split_ifs with h
      · rw [ih _ _ _ (by omega) (by omega), follow]
        congr 1 <;> omega
      · obtain rfl : n = 1 := by omega
        rfl

@[simp] theorem lastPlace_eq {n : ℕ} (hn : 0 < n) : lastPlace n = n - 1 := by
  rw [lastPlace, follow_path _ _ _ _ hn le_rfl, follow]

section
variable (less : α → α → Bool)

/-- The node at `i` is swapped with its parent as long as it is less. -/
def walkUp : ℕ → List α → ℕ → List α
  | 0, xs, _ => xs
  | fuel + 1, xs, i =>
    if i = 0 then xs
    else
      match xs[i]?, xs[parent i]? with
      | some x, some y => if less x y then walkUp fuel (swap xs i (parent i)) (parent i) else xs
      | _, _ => xs

/-- The place `c`, if there is a node and it is less than the one at `s`. -/
def pick (xs : List α) (s c : ℕ) : ℕ :=
  match xs[c]?, xs[s]? with
  | some x, some y => if less x y then c else s
  | _, _ => s

def smallest (xs : List α) (i : ℕ) : ℕ := pick less xs (pick less xs i (2 * i + 1)) (2 * i + 2)

/-- The node at `i` is swapped with its smallest child as long as that is less; the second result is
where it ends. -/
def walkDown : ℕ → List α → ℕ → List α × ℕ
  | 0, xs, i => (xs, i)
  | fuel + 1, xs, i =>
    let s := smallest less xs i
    if s = i then (xs, i) else walkDown fuel (swap xs i s) s

def insert (xs : List α) (x : α) : List α :=
  let i := lastPlace (xs.length + 1)
  walkUp less (i + 1) (xs ++ [x]) i

/-- The node at `i` is taken out. -/
def remove (xs : List α) (i : ℕ) : List α :=
  if xs.length = 0 then xs
  else
    let last := lastPlace xs.length
    match xs[last]? with
    | some child =>
      if last = i then xs.take last
      else
        let r := walkDown less xs.length ((xs.take last).set i child) i
        walkUp less (r.2 + 1) r.1 r.2
    | none => xs

end

def min (xs : List α) : Option α := xs[0]?

section
variable {xs : List α} {i j k : ℕ} {x y z : α}

theorem getElem?_swap (hi : xs[i]? = some x) (hj : xs[j]? = some y) (k : ℕ) :
    (swap xs i j)[k]? = if k = j then some x else if k = i then some y else xs[k]? := by
  obtain ⟨hi', -⟩ := List.getElem?_eq_some_iff.mp hi
  obtain ⟨hj', -⟩ := List.getElem?_eq_some_iff.mp hj
  simp only [swap, hi, hj, List.getElem?_set, List.length_set]
  split_ifs <;> first | rfl | omega

theorem swap_perm (xs : List α) (i j : ℕ) : (swap xs i j).Perm xs := by
  unfold swap
  split
  · rename_i x y hi hj
    obtain ⟨hi', rfl⟩ := List.getElem?_eq_some_iff.mp hi
    obtain ⟨hj', rfl⟩ := List.getElem?_eq_some_iff.mp hj
    exact List.set_set_perm hi' hj'
  · exact .refl _

@[simp] theorem length_swap (xs : List α) (i j : ℕ) : (swap xs i j).length = xs.length := by
  unfold swap
  split <;> simp

theorem parent_lt (h : 0 < i) : parent i < i := by
  unfold parent
  omega

theorem parent_eq_iff (h : 0 < j) : parent j = i ↔ j = 2 * i + 1 ∨ j = 2 * i + 2 := by
  unfold parent
  omega

variable {less : α → α → Bool}

theorem walkUp_perm (fuel : ℕ) (xs : List α) (i : ℕ) : (walkUp less fuel xs i).Perm xs := by
  induction fuel generalizing xs i with
  | zero => exact .refl _
  | succ fuel ih =>
      rw [walkUp]
      split_ifs with hi
      · exact .refl _
      · split
        · split_ifs
          · exact (ih _ _).trans (swap_perm xs _ _)
          · exact .refl _
        · exact .refl _

theorem walkDown_perm (fuel : ℕ) (xs : List α) (i : ℕ) : (walkDown less fuel xs i).1.Perm xs := by
  induction fuel generalizing xs i with
  | zero => exact .refl _
  | succ fuel ih =>
      rw [walkDown]
      split_ifs with hi
      · exact .refl _
      · exact (ih _ _).trans (swap_perm xs _ _)

theorem insert_perm (less : α → α → Bool) (xs : List α) (x : α) : (insert less xs x).Perm (x :: xs) := by
  rw [insert]
  exact (walkUp_perm _ _ _).trans List.perm_append_comm

open scoped List in
theorem remove_perm (less : α → α → Bool) (hi : xs[i]? = some x) : (x :: remove less xs i).Perm xs := by
  obtain ⟨hlt, rfl⟩ := List.getElem?_eq_some_iff.mp hi
  have hpos : 0 < xs.length := by omega
  rw [remove, if_neg (by omega), lastPlace_eq hpos]
  have hlast : xs[xs.length - 1]? = some xs[xs.length - 1] := List.getElem?_eq_getElem (by omega)
  simp only [hlast]
  have hsplit : xs = xs.take (xs.length - 1) ++ [xs[xs.length - 1]] := by
    conv_lhs => rw [← List.take_append_drop (xs.length - 1) xs]
    rw [List.drop_eq_getElem_cons (by omega), List.drop_of_length_le (by omega)]
  split_ifs with h
  · subst h
    conv_rhs => rw [hsplit]
    exact (List.perm_append_singleton _ _).symm
  · refine (((walkUp_perm _ _ _).trans (walkDown_perm _ _ _)).cons _).trans ?_
    have hlt' : i < (xs.take (xs.length - 1)).length := by
      rw [List.length_take]
      omega
    have hget : (xs.take (xs.length - 1))[i] = xs[i] := List.getElem_take
    have hset := List.set_perm_cons_eraseIdx hlt' xs[xs.length - 1]
    have herase := List.getElem_cons_eraseIdx_perm hlt'
    rw [hget] at herase
    calc xs[i] :: (xs.take (xs.length - 1)).set i xs[xs.length - 1]
      _ ~ xs[i] :: xs[xs.length - 1] :: (xs.take (xs.length - 1)).eraseIdx i := hset.cons _
      _ ~ xs[xs.length - 1] :: xs[i] :: (xs.take (xs.length - 1)).eraseIdx i := .swap ..
      _ ~ xs[xs.length - 1] :: xs.take (xs.length - 1) := herase.cons _
      _ ~ xs.take (xs.length - 1) ++ [xs[xs.length - 1]] := (List.perm_append_singleton _ _).symm
      _ ~ xs := .of_eq hsplit.symm

end

section
variable [LinearOrder κ] {key : α → κ} {xs : List α} {i : ℕ} {x y : α}

/-- No node is less than its parent. -/
def Ordered (key : α → κ) (xs : List α) : Prop :=
  ∀ j x y, 0 < j → xs[j]? = some x → xs[parent j]? = some y → key y ≤ key x

/-- Only the node at `i` may be less than its parent. -/
structure UpOrdered (key : α → κ) (xs : List α) (i : ℕ) : Prop where
  except : ∀ j x y, 0 < j → j ≠ i → xs[j]? = some x → xs[parent j]? = some y → key y ≤ key x
  grand : ∀ j x y, 0 < i → 0 < j → parent j = i → xs[j]? = some x → xs[parent i]? = some y → key y ≤ key x

/-- Only the node at `i` may be out of order, with its parent or its children. -/
structure DownOrdered (key : α → κ) (xs : List α) (i : ℕ) : Prop where
  except : ∀ j x y, 0 < j → j ≠ i → parent j ≠ i → xs[j]? = some x → xs[parent j]? = some y → key y ≤ key x
  grand : ∀ j x y, 0 < i → 0 < j → parent j = i → xs[j]? = some x → xs[parent i]? = some y → key y ≤ key x

theorem Ordered.min_le (h : Ordered key xs) (hx : min xs = some x) {y : α} (hy : y ∈ xs) : key x ≤ key y := by
  obtain ⟨i, hi⟩ := List.getElem?_of_mem hy
  clear hy
  induction i using Nat.strongRecOn generalizing y with
  | ind i ih =>
      by_cases hzero : i = 0
      · subst hzero
        obtain rfl := Option.some.inj (hx.symm.trans hi)
        exact le_rfl
      · have hpos : 0 < i := by omega
        have hlt := parent_lt hpos
        have hsome : parent i < xs.length := hlt.trans (List.getElem?_eq_some_iff.mp hi).1
        have hp := List.getElem?_eq_getElem hsome
        exact (ih _ hlt hp).trans (h i _ _ hpos hi hp)

theorem Ordered.take (h : Ordered key xs) (n : ℕ) : Ordered key (xs.take n) := by
  intro j x y hj hx hy
  rw [List.getElem?_take] at hx hy
  split_ifs at hx hy with h1 h2
  exact h j x y hj hx hy

theorem min_eq_none {xs : List α} : min xs = none ↔ xs = [] := by
  simp [min]

/-- A node behind the last one. -/
theorem Ordered.append (h : Ordered key xs) (x : α) : UpOrdered key (xs ++ [x]) xs.length := by
  have hbelow : ∀ (j : ℕ) (y : α), (xs ++ [x])[j]? = some y → j ≤ xs.length := by
    intro j y hy
    have hlt := (List.getElem?_eq_some_iff.mp hy).1
    simp only [List.length_append, List.length_singleton] at hlt
    omega
  refine ⟨fun j a b hj hne ha hb => ?_, fun j a b hi hj hp ha hb => ?_⟩
  · have hlt : j < xs.length := by
      have hle := hbelow j a ha
      omega
    rw [List.getElem?_append_left hlt] at ha
    rw [List.getElem?_append_left ((parent_lt hj).trans hlt)] at hb
    exact h j a b hj ha hb
  · have hle := hbelow j a ha
    have hlt := parent_lt hj
    omega

/-- Another node in one place. -/
theorem Ordered.set (h : Ordered key xs) (i : ℕ) (x : α) : DownOrdered key (xs.set i x) i := by
  refine ⟨fun j a b hj hji hpi ha hb => ?_, fun j a b hi hj hpi ha hb => ?_⟩
  · rw [List.getElem?_set_ne hji.symm] at ha
    rw [List.getElem?_set_ne hpi.symm] at hb
    exact h j a b hj ha hb
  · have hji : j ≠ i := by
      have hlt := parent_lt hj
      omega
    have hlt : i < xs.length := by
      have hj' := (List.getElem?_eq_some_iff.mp ha).1
      have hp := parent_lt hj
      rw [List.length_set] at hj'
      omega
    rw [List.getElem?_set_ne hji.symm] at ha
    rw [List.getElem?_set_ne (parent_lt hi).ne'] at hb
    have hmid : xs[i]? = some xs[i] := List.getElem?_eq_getElem hlt
    exact (h i _ b hi hmid hb).trans (h j a _ hj ha (hpi ▸ hmid))

theorem UpOrdered.swap (h : UpOrdered key xs i) (hi : 0 < i) (hx : xs[i]? = some x)
    (hy : xs[parent i]? = some y) (hlt : key x < key y) : UpOrdered key (swap xs i (parent i)) (parent i) := by
  have hp := parent_lt hi
  refine ⟨fun j a b hj hne ha hb => ?_, fun j a b hpp hj hpj ha hb => ?_⟩
  · rw [getElem?_swap hx hy] at ha hb
    rw [if_neg hne] at ha
    by_cases hji : j = i
    · subst hji
      rw [if_pos rfl] at ha hb
      rw [← Option.some.inj ha, ← Option.some.inj hb]
      exact hlt.le
    · rw [if_neg hji] at ha
      split_ifs at hb with h1 h2
      · rw [← Option.some.inj hb]
        exact hlt.le.trans (h.except j a y hj hji ha (h1 ▸ hy))
      · rw [← Option.some.inj hb]
        exact h.grand j a y hi hj h2 ha hy
      · exact h.except j a b hj hji ha hb
  · rw [getElem?_swap hx hy] at ha hb
    have hp2 := parent_lt hpp
    rw [if_neg hp2.ne, if_neg (by omega)] at hb
    have hyb : key b ≤ key y := h.except _ y b hpp hp.ne hy hb
    have hj' := parent_lt hj
    rw [if_neg (by omega)] at ha
    split_ifs at ha with h1
    · exact Option.some.inj ha ▸ hyb
    · exact hyb.trans (h.except j a y hj h1 ha (hpj ▸ hy))

variable {less : α → α → Bool} (hless : ∀ a b, less a b = true ↔ key a < key b)

include hless in
theorem UpOrdered.walkUp (h : UpOrdered key xs i) {fuel : ℕ} (hf : i < fuel) (hi : i < xs.length) :
    Ordered key (walkUp less fuel xs i) := by
  induction fuel generalizing xs i with
  | zero => omega
  | succ fuel ih =>
      rw [MinHeap.walkUp]
      split_ifs with hzero
      · subst hzero
        exact fun j a b hj ha hb => h.except j a b hj hj.ne' ha hb
      · have hpos : 0 < i := by omega
        have hp := parent_lt hpos
        have hx : xs[i]? = some xs[i] := List.getElem?_eq_getElem hi
        have hy : xs[parent i]? = some xs[parent i] := List.getElem?_eq_getElem (hp.trans hi)
        simp only [hx, hy]
        split_ifs with hl
        · refine ih (h.swap hpos hx hy ((hless _ _).mp hl)) (by omega) ?_
          rw [length_swap]
          omega
        · have hle : key xs[parent i] ≤ key xs[i] := not_lt.mp fun hlt => hl ((hless _ _).mpr hlt)
          intro j a b hj ha hb
          by_cases hji : j = i
          · subst hji
            obtain rfl := Option.some.inj (hx.symm.trans ha)
            obtain rfl := Option.some.inj (hy.symm.trans hb)
            exact hle
          · exact h.except j a b hj hji ha hb

/-- `pick` takes one of the two places, and nothing there is less. -/
theorem pick_spec {less : α → α → Bool} (hless : ∀ a b, less a b = true ↔ key a < key b) {s c : ℕ}
    (hs : xs[s]? = some x) :
    ∃ z, xs[pick less xs s c]? = some z ∧ key z ≤ key x ∧
      (pick less xs s c = s ∨ pick less xs s c = c ∧ key z < key x) ∧
      ∀ w, xs[c]? = some w → key z ≤ key w := by
  unfold pick
  rw [hs]
  cases hc : xs[c]? with
  | none => exact ⟨x, hs, le_rfl, .inl rfl, by simp⟩
  | some w =>
      simp only
      split_ifs with hl
      · have hlt := (hless _ _).mp hl
        refine ⟨w, hc, hlt.le, .inr ⟨rfl, hlt⟩, fun w' hw' => ?_⟩
        exact (congrArg key (Option.some.inj hw')).le
      · refine ⟨x, hs, le_rfl, .inl rfl, fun w' hw' => ?_⟩
        rw [← Option.some.inj hw']
        exact not_lt.mp fun hlt => hl ((hless _ _).mpr hlt)

/-- The smallest of a node and its children. -/
theorem smallest_spec {less : α → α → Bool} (hless : ∀ a b, less a b = true ↔ key a < key b) (hx : xs[i]? = some x) :
    ∃ z, xs[smallest less xs i]? = some z ∧
      (smallest less xs i = i ∨ (0 < smallest less xs i ∧ parent (smallest less xs i) = i ∧ key z < key x)) ∧
        ∀ j w, 0 < j → parent j = i → xs[j]? = some w → key z ≤ key w := by
  obtain ⟨u, hu, hux, hucase, hul⟩ := pick_spec hless (c := 2 * i + 1) hx
  obtain ⟨z, hz, hzu, hzcase, hzr⟩ := pick_spec hless (c := 2 * i + 2) hu
  refine ⟨z, hz, ?_, fun j w hj hp hw => ?_⟩
  · rw [smallest]
    rcases hzcase with hz | ⟨hz, hlt⟩
    · rw [hz]
      rcases hucase with hu' | ⟨hu', hlt⟩
      · exact .inl hu'
      · rw [hu']
        exact .inr ⟨by omega, (parent_eq_iff (by omega)).mpr (.inl rfl), hzu.trans_lt hlt⟩
    · rw [hz]
      exact .inr ⟨by omega, (parent_eq_iff (by omega)).mpr (.inr rfl), hlt.trans_le hux⟩
  · rcases (parent_eq_iff hj).mp hp with rfl | rfl
    · exact hzu.trans (hul w hw)
    · exact hzr w hw

theorem DownOrdered.swap {s : ℕ} {z : α} (h : DownOrdered key xs i) (hx : xs[i]? = some x) (hz : xs[s]? = some z)
    (hs : 0 < s) (hp : parent s = i) (hleast : ∀ j w, 0 < j → parent j = i → xs[j]? = some w → key z ≤ key w) :
    DownOrdered key (swap xs i s) s := by
  have hlt : i < s := hp ▸ parent_lt hs
  refine ⟨fun j a b hj hjs hpj ha hb => ?_, fun j a b _ hj hpj ha hb => ?_⟩
  · rw [getElem?_swap hx hz] at ha hb
    rw [if_neg hjs] at ha
    rw [if_neg hpj] at hb
    split_ifs at ha with hji
    · subst hji
      rw [if_neg (parent_lt hj).ne] at hb
      exact Option.some.inj ha ▸ h.grand s z b hj hs hp hz hb
    · split_ifs at hb with hpi
      · exact Option.some.inj hb ▸ hleast j a hj hpi ha
      · exact h.except j a b hj hji hpi ha hb
  · have hj' := parent_lt hj
    rw [getElem?_swap hx hz] at ha hb
    rw [if_neg (by omega), if_neg (by omega)] at ha
    rw [hp, if_neg hlt.ne, if_pos rfl] at hb
    exact Option.some.inj hb ▸ h.except j a z hj (by omega) (by omega) ha (hpj ▸ hz)

include hless in
theorem DownOrdered.walkDown (h : DownOrdered key xs i) {fuel : ℕ} (hf : xs.length ≤ fuel + i) (hi : i < xs.length) :
    UpOrdered key (walkDown less fuel xs i).1 (walkDown less fuel xs i).2 ∧
      (walkDown less fuel xs i).2 < xs.length := by
  induction fuel generalizing xs i with
  | zero => omega
  | succ fuel ih =>
      have hx : xs[i]? = some xs[i] := List.getElem?_eq_getElem hi
      obtain ⟨z, hz, hcase, hleast⟩ := smallest_spec hless hx
      rw [MinHeap.walkDown]
      split_ifs with hs
      · rw [hs] at hz
        obtain rfl := Option.some.inj (hx.symm.trans hz)
        refine ⟨⟨fun j a b hj hji ha hb => ?_, h.grand⟩, hi⟩
        by_cases hpi : parent j = i
        · obtain rfl := Option.some.inj (hx.symm.trans (hpi ▸ hb))
          exact hleast j a hj hpi ha
        · exact h.except j a b hj hji hpi ha hb
      · obtain ⟨hpos, hp, -⟩ := hcase.resolve_left hs
        have hlt : i < smallest less xs i := by
          have hparent := parent_lt hpos
          omega
        have hlen : smallest less xs i < xs.length := (List.getElem?_eq_some_iff.mp hz).1
        have hswap := h.swap hx hz hpos hp hleast
        have hrec := ih hswap (by rw [length_swap]; omega) (by rw [length_swap]; exact hlen)
        rw [length_swap] at hrec
        exact hrec

include hless in
theorem Ordered.insert (h : Ordered key xs) (x : α) : Ordered key (insert less xs x) := by
  rw [MinHeap.insert, lastPlace_eq (by omega), Nat.add_sub_cancel]
  exact (h.append x).walkUp hless (by omega) (by simp)

include hless in
theorem Ordered.remove (h : Ordered key xs) (hi : i < xs.length) : Ordered key (remove less xs i) := by
  rw [MinHeap.remove]
  split_ifs with hzero
  · exact h
  · rw [lastPlace_eq (by omega)]
    have hlast : xs[xs.length - 1]? = some xs[xs.length - 1] := List.getElem?_eq_getElem (by omega)
    simp only [hlast]
    split_ifs with heq
    · exact h.take _
    · have hdown := (h.take (xs.length - 1)).set i xs[xs.length - 1]
      have hlen : ((xs.take (xs.length - 1)).set i xs[xs.length - 1]).length = xs.length - 1 := by
        rw [List.length_set, List.length_take]
        omega
      have hfuel : ((xs.take (xs.length - 1)).set i xs[xs.length - 1]).length ≤ xs.length + i := by omega
      obtain ⟨hup, hend⟩ := hdown.walkDown hless hfuel (by omega)
      refine hup.walkUp hless (by omega) ?_
      rw [(walkDown_perm _ _ _).length_eq]
      exact hend

end

end MinHeap
