import Mathlib.Data.List.Basic
import Mathlib.Data.Nat.ModEq
import Mathlib.Logic.Function.Basic

/-! Memory of `size` cells mapped twice in a row, so that every index aliases
its residue. A run of at most `size` cells is contiguous from any start.
Positions in a stream are unbounded; a cursor only keeps a residue of one. -/

namespace HiloUtils.MirrorRing

variable {α : Type*} {size : Nat}

def load (size : Nat) (cells : Nat → α) (i n : Nat) : List α :=
  (List.range n).map fun k => cells ((i + k) % size)

def store (size : Nat) (cells : Nat → α) : Nat → List α → Nat → α
  | _, [] => cells
  | i, b :: bs => store size (Function.update cells (i % size) b) (i + 1) bs

@[simp] theorem load_length (cells : Nat → α) (i n : Nat) :
    (load size cells i n).length = n := by
  simp [load]

theorem load_add (cells : Nat → α) (i m n : Nat) :
    load size cells i (m + n) = load size cells i m ++ load size cells (i + m) n := by
  simp [load, List.range_add, Function.comp_def, Nat.add_assoc]

theorem load_alias (cells : Nat → α) {i j : Nat} (h : i % size = j % size) (n : Nat) :
    load size cells i n = load size cells j n := by
  simp only [load]
  apply List.map_congr_left
  intro k _
  rw [Nat.add_mod, h, ← Nat.add_mod]

theorem load_congr {cells cells' : Nat → α} {i n : Nat}
    (h : ∀ k < n, cells ((i + k) % size) = cells' ((i + k) % size)) :
    load size cells i n = load size cells' i n := by
  simp only [load]
  apply List.map_congr_left
  intro k hk
  exact h k (List.mem_range.mp hk)

theorem store_append (cells : Nat → α) (i : Nat) (a b : List α) :
    store size cells i (a ++ b) = store size (store size cells i a) (i + a.length) b := by
  induction a generalizing cells i with
  | nil => rfl
  | cons x a ih =>
    simp only [List.cons_append, store, List.length_cons]
    rw [ih, Nat.add_assoc, Nat.add_comm 1]

theorem store_alias (cells : Nat → α) {i j : Nat} (h : i % size = j % size) (bs : List α) :
    store size cells i bs = store size cells j bs := by
  induction bs generalizing cells i j with
  | nil => rfl
  | cons b bs ih =>
    simp only [store]
    rw [h]
    apply ih
    rw [Nat.add_mod, h, ← Nat.add_mod]

theorem store_apply_of_ne (cells : Nat → α) (i p : Nat) (bs : List α)
    (h : ∀ k < bs.length, (i + k) % size ≠ p) : store size cells i bs p = cells p := by
  induction bs generalizing cells i with
  | nil => rfl
  | cons b bs ih =>
    have hp : p ≠ i % size := (h 0 (by simp)).symm
    rw [store, ih, Function.update_of_ne hp]
    intro k hk
    rw [Nat.add_assoc, Nat.add_comm 1]
    exact h (k + 1) (by simpa using hk)

theorem mod_ne_of_window {a b : Nat} (hab : a < b) (hb : b < a + size) :
    a % size ≠ b % size := by
  intro h
  have hdvd : size ∣ b - a := (Nat.modEq_iff_dvd' hab.le).mp h
  have hle := Nat.le_of_dvd (by omega) hdvd
  omega

theorem load_store_self (cells : Nat → α) (i : Nat) (bs : List α) (h : bs.length ≤ size) :
    load size (store size cells i bs) i bs.length = bs := by
  induction bs generalizing cells i with
  | nil => rfl
  | cons b bs ih =>
    have hfirst : store size cells i (b :: bs) (i % size) = b := by
      rw [store, store_apply_of_ne, Function.update_self]
      intro k hk
      rw [Nat.add_assoc]
      refine (mod_ne_of_window (by omega) ?_).symm
      simp only [List.length_cons] at h
      omega
    have hrest := ih (Function.update cells (i % size) b) (i + 1)
      (by simp only [List.length_cons] at h; omega)
    rw [List.length_cons, Nat.add_comm, load_add, store, hrest]
    have hone : load size (store size cells i (b :: bs)) i 1 = [b] := by
      simp [load, List.range_succ, hfirst]
    rw [store] at hone
    rw [hone, List.singleton_append]

theorem load_store_before (cells : Nat → α) {i j n : Nat} (bs : List α)
    (hij : i + n ≤ j) (hwrap : j + bs.length ≤ i + size) :
    load size (store size cells j bs) i n = load size cells i n := by
  apply load_congr
  intro k hk
  apply store_apply_of_ne
  intro l hl
  exact (mod_ne_of_window (by omega) (by omega)).symm

/-- The cells from stream position `pos` on hold the sequence `q`. -/
def Holds (size : Nat) (cells : Nat → α) (pos : Nat) (q : List α) : Prop :=
  load size cells pos q.length = q

namespace Holds

variable {cells : Nat → α} {pos : Nat} {q : List α}

theorem empty (cells : Nat → α) (pos : Nat) : Holds size cells pos [] := rfl

theorem append (h : Holds size cells pos q) (d : List α) (hfit : q.length + d.length ≤ size) :
    Holds size (store size cells (pos + q.length) d) pos (q ++ d) := by
  unfold Holds at h ⊢
  rw [List.length_append, load_add, load_store_self _ _ _ (by omega),
    load_store_before _ _ (by omega) (by omega), h]

theorem back {a b : List α} (h : Holds size cells pos (a ++ b)) :
    Holds size cells (pos + a.length) b := by
  unfold Holds at h ⊢
  rw [List.length_append, load_add] at h
  exact (List.append_inj h (by simp)).2

theorem front {a b : List α} (h : Holds size cells pos (a ++ b)) :
    Holds size cells pos a := by
  unfold Holds at h ⊢
  rw [List.length_append, load_add] at h
  exact (List.append_inj h (by simp)).1

theorem load_alias {n : Nat} (h : Holds size cells pos q) {i : Nat} (hi : i % size = pos % size)
    (hn : n = q.length) : load size cells i n = q := by
  rw [MirrorRing.load_alias cells hi, hn]
  exact h

end Holds

structure HeadAt (size head pos : Nat) : Prop where
  lt : head < size
  mod : head % size = pos % size

/-- A cursor in `[0, size]` for a stream position: unlike `HeadAt` it may rest
at the end of the ring instead of at its beginning. -/
structure TailAt (size tail pos : Nat) : Prop where
  le : tail ≤ size
  mod : tail % size = pos % size

theorem HeadAt.advance {head pos : Nat} (h : HeadAt size head pos) {n : Nat} (hn : n ≤ size) :
    HeadAt size (if size ≤ head + n then head + n - size else head + n) (pos + n) := by
  have hlt := h.lt
  have hmod : (head + n) % size = (pos + n) % size := by
    rw [Nat.add_mod, h.mod, ← Nat.add_mod]
  split
  · next hwrap => exact ⟨by omega, by rw [← hmod, Nat.mod_eq_sub_mod hwrap]⟩
  · next hwrap => exact ⟨by omega, hmod⟩

theorem TailAt.advance {tail pos : Nat} (h : TailAt size tail pos) {n : Nat} (hn : n ≤ size) :
    TailAt size (if size < tail + n then tail + n - size else tail + n) (pos + n) := by
  have hle := h.le
  have hmod : (tail + n) % size = (pos + n) % size := by
    rw [Nat.add_mod, h.mod, ← Nat.add_mod]
  split
  · next hwrap => exact ⟨by omega, by rw [← hmod, Nat.mod_eq_sub_mod hwrap.le]⟩
  · next hwrap => exact ⟨by omega, hmod⟩

/-- The two cursors of a stretch of `n < size` cells. The last case is the
empty stretch whose tail rests at the end of the ring. -/
theorem cursors {head tail pos n : Nat} (hh : HeadAt size head pos)
    (ht : TailAt size tail (pos + n)) (hn : n < size) :
    (head ≤ tail ∧ tail - head = n) ∨ (tail < head ∧ size - (head - tail) = n) ∨
      (n = 0 ∧ head = 0 ∧ tail = size) := by
  have hlt := hh.lt
  have hle := ht.le
  have hmod : (head + n) % size = tail % size := by
    rw [ht.mod, Nat.add_mod, hh.mod, ← Nat.add_mod]
  rcases Nat.lt_or_ge (head + n) size with hsum | hsum
  · rw [Nat.mod_eq_of_lt hsum] at hmod
    rcases Nat.lt_or_eq_of_le hle with htail | rfl
    · rw [Nat.mod_eq_of_lt htail] at hmod
      omega
    · rw [Nat.mod_self] at hmod
      omega
  · rw [Nat.mod_eq_sub_mod hsum, Nat.mod_eq_of_lt (by omega)] at hmod
    rcases Nat.lt_or_eq_of_le hle with htail | rfl
    · rw [Nat.mod_eq_of_lt htail] at hmod
      omega
    · rw [Nat.mod_self] at hmod
      omega

end HiloUtils.MirrorRing
