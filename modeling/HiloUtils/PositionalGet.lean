import HiloUtils.RingWindow

/-! `Get` by position and direction against the three other ways to read a
record. It takes the size of the record for the size of the payload. -/

namespace HiloUtils.PositionalGet

open Word MirrorRing BoundedFifo RecordQueue MessageQueue MessageStream StreamPosition Readers
open RingWindow

def position (st : Stream) (n : Nat) : Int := i64 (startOf st.log n)

/-- Where `Get` leaves the position: before the first record there is none. -/
def moved (st : Stream) (n : Nat) : Direction → Int
  | .none => position st n
  | .next => position st (n + 1)
  | .prev => if n = st.gone then -1 else position st (n - 1)

/-- What a call at the record with number `n` and payload `p` should do. -/
structure Exact (s : ShmBufferExData) (st : Stream) (n : Nat) (p : Payload) (dir : Direction)
    (maxSize : Nat) : Prop where
  ok_iff : (s.getAt (position st n) dir maxSize).1.ok = true ↔ p.length ≤ maxSize
  fetch : (s.getAt (position st n) dir maxSize).1.ok = true →
    (s.getAt (position st n) dir maxSize).1 = ⟨true, p.length, some p⟩
  same_getWithLoss : (s.getAt (position st n) dir maxSize).1.ok = true →
    (s.getWithLoss (position st n) maxSize).1 = (s.getAt (position st n) dir maxSize).1
  same_getByReader : (s.getAt (position st n) dir maxSize).1.ok = true → ∀ i : Fin maxReaderCount,
    (s.reader i).pos = position st n →
      (s.getByReader i maxSize).1 = (s.getAt (position st n) dir maxSize).1
  same_pop : (s.getAt (position st n) dir maxSize).1.ok = true → n = st.gone →
    s.pop maxSize false = some ((s.getAt (position st n) dir maxSize).1, s)
  within : ∀ e ∈ s.getAtReads (position st n) dir maxSize,
    e.Within (s.getRecord (position st n)) (recSize p)
  pos_eq : (s.getAt (position st n) dir maxSize).1.ok = true →
    (s.getAt (position st n) dir maxSize).2 = moved st n dir

section

variable {size n : Nat} {s : ShmBufferExData} {st : Stream} {p : Payload}

theorem record_at_position (h : Tracks size s st) (hn : st.gone ≤ n) (hp : st.log[n]? = some p) :
    s.recordSizeAt (s.getRecord (position st n)) = recSize p :=
  (record_at_log h hn hp).1

theorem getAt_short (h : Tracks size s st) (hn : st.gone ≤ n) (hp : st.log[n]? = some p)
    (dir : Direction) {maxSize : Nat} (hshort : maxSize < p.length) :
    (s.getAt (position st n) dir maxSize).1.ok = false := by
  have hrec := record_at_position h hn hp
  have hsize : maxSize < recSize p := Nat.lt_of_lt_of_le hshort (Nat.le_add_right _ _)
  unfold ShmBufferExData.getAt
  split
  · rfl
  · split
    · rfl
    · split
      · rfl
      · dsimp only
        rw [hrec, if_pos hsize]

/-- A call with room for the payload reports eight bytes too many, if any. -/
theorem getAt_size_ne (h : Tracks size s st) (hn : st.gone ≤ n) (hp : st.log[n]? = some p)
    (dir : Direction) (maxSize : Nat) :
    (s.getAt (position st n) dir maxSize).1.ok = true →
      (s.getAt (position st n) dir maxSize).1.size = p.length + 8 := by
  have hrec := record_at_position h hn hp
  unfold ShmBufferExData.getAt
  split
  · intro hok
    cases hok
  · split
    · intro hok
      cases hok
    · split
      · intro hok
        cases hok
      · dsimp only
        rw [hrec]
        split
        · intro hok
          cases hok
        · intro _
          rfl

theorem getAtReads_short (h : Tracks size s st) (hn : st.gone ≤ n) (hp : st.log[n]? = some p)
    (dir : Direction) {maxSize : Nat} (hshort : maxSize < p.length) :
    ∀ e ∈ s.getAtReads (position st n) dir maxSize,
      e.Within (s.getRecord (position st n)) (recSize p) := by
  have hrec := record_at_position h hn hp
  have hsize : maxSize < recSize p := Nat.lt_of_lt_of_le hshort (Nat.le_add_right _ _)
  intro e he
  unfold ShmBufferExData.getAtReads at he
  split at he
  · exact absurd he List.not_mem_nil
  · split at he
    · exact absurd he List.not_mem_nil
    · split at he
      · exact absurd he List.not_mem_nil
      · dsimp only at he
        rw [hrec, if_pos hsize] at he
        rw [List.mem_singleton.mp he]
        exact sizeBytes_within _ p

theorem exact_iff (h : Tracks size s st) (hn : st.gone ≤ n) (hp : st.log[n]? = some p)
    (dir : Direction) (maxSize : Nat) : Exact s st n p dir maxSize ↔ maxSize < p.length := by
  constructor
  · intro hexact
    by_contra hlong
    have hok := hexact.ok_iff.mpr (Nat.le_of_not_lt hlong)
    have hsize := getAt_size_ne h hn hp dir maxSize hok
    rw [hexact.fetch hok] at hsize
    change p.length = p.length + 8 at hsize
    omega
  · intro hshort
    have hfail := getAt_short h hn hp dir hshort
    have hnever {c : Prop} (hok : (s.getAt (position st n) dir maxSize).1.ok = true) : c :=
      absurd (hok.symm.trans hfail) (by decide)
    refine ⟨⟨hnever, fun hle => absurd hle (Nat.not_le_of_lt hshort)⟩, hnever, hnever, hnever,
      hnever, getAtReads_short h hn hp dir hshort, hnever⟩

/-! The other ways to read the record get it as it was pushed. -/

theorem catchUp_at (h : Tracks size s st) (hvolume : st.volume < 2 ^ 63) (hn : st.gone ≤ n)
    (hp : st.log[n]? = some p) {r : ReaderInfo} (hr : r.pos = position st n) :
    s.catchUp r = r ∧ ¬ s.getLastVptr < r.pos := by
  obtain ⟨hlt, -⟩ := List.getElem?_eq_some_iff.mp hp
  have hlive : st.live ≠ [] := by
    intro hnil
    have hlen := congrArg List.length hnil
    rw [Stream.live, List.length_drop, List.length_nil] at hlen
    omega
  have hbound (m : Nat) : startOf st.log m < 2 ^ 63 :=
    Nat.lt_of_le_of_lt (startOf_le st.log m) hvolume
  have hbegin : s.getBeginVptr = startOf st.log st.gone := by
    rw [← i64_natCast (hbound st.gone)]
    exact getBeginVptr_eq h.represents.laidOut
  have hlast := getLastVptr_exact h hvolume hlive
  have hlower := @startOf_mono st.log _ _ hn
  have hupper := @startOf_mono st.log _ _ (Nat.le_sub_one_of_lt hlt)
  rw [position, i64_natCast (hbound n)] at hr
  rw [ShmBufferExData.catchUp, hbegin, hlast, hr, if_neg (by omega)]
  exact ⟨rfl, by omega⟩

theorem count_ne_zero (h : Tracks size s st) (hn : st.gone ≤ n) (hp : st.log[n]? = some p) :
    s.count ≠ 0 := by
  obtain ⟨hlt, -⟩ := List.getElem?_eq_some_iff.mp hp
  rw [h.represents.count_eq, Stream.live, List.length_drop]
  omega

theorem getWithLoss_exact (h : Tracks size s st) (hvolume : st.volume < 2 ^ 63)
    (hn : st.gone ≤ n) (hp : st.log[n]? = some p) {maxSize : Nat} (hle : p.length ≤ maxSize) :
    (s.getWithLoss (position st n) maxSize).1 = ⟨true, p.length, some p⟩ := by
  obtain ⟨hcatch, hlast⟩ := catchUp_at (r := ⟨position st n, 0⟩) h hvolume hn hp rfl
  obtain ⟨-, hsize, hdata⟩ := record_at_log h hn hp
  rw [← position] at hsize hdata
  unfold ShmBufferExData.getWithLoss
  rw [if_neg (count_ne_zero h hn hp)]
  simp only [hcatch, if_neg hlast, hsize, hdata, if_neg (Nat.not_lt_of_le hle)]

theorem getByReader_exact (h : Tracks size s st) (hvolume : st.volume < 2 ^ 63)
    (hn : st.gone ≤ n) (hp : st.log[n]? = some p) {maxSize : Nat} (hle : p.length ≤ maxSize)
    (i : Fin maxReaderCount) (hi : (s.reader i).pos = position st n) :
    (s.getByReader i maxSize).1 = ⟨true, p.length, some p⟩ := by
  obtain ⟨hcatch, hlast⟩ := catchUp_at h hvolume hn hp hi
  rw [hi] at hlast
  obtain ⟨-, hsize, hdata⟩ := record_at_log h hn hp
  rw [← position] at hsize hdata
  have hindex : ¬ ((i : Nat) : Int) < 0 ∧ ¬ (maxReaderCount : Int) ≤ (i : Nat) := by
    have := i.isLt
    omega
  unfold ShmBufferExData.getByReader
  rw [dif_neg (not_or.mpr hindex), if_neg (count_ne_zero h hn hp)]
  simp only [Int.toNat_natCast, Fin.eta, hcatch, hi, if_neg hlast, hsize, hdata,
    if_neg (Nat.not_lt_of_le hle)]

theorem pop_exact (h : Tracks size s st) (hp : st.log[st.gone]? = some p) {maxSize : Nat}
    (hle : p.length ≤ maxSize) : s.pop maxSize false = some (⟨true, p.length, some p⟩, s) := by
  obtain ⟨hlt, heq⟩ := List.getElem?_eq_some_iff.mp hp
  have hrep := h.represents
  have hlive : st.live = p :: st.log.drop (st.gone + 1) := by
    rw [Stream.live, List.drop_eq_getElem_cons hlt, heq]
  rw [hlive] at hrep
  rw [hrep.laidOut.pop_cons, if_neg (Nat.not_lt_of_le hle)]
  rfl

end

/-- In every reachable state and at every live record, the call does what it
should exactly if it has to fail. -/
theorem run_exact_iff (raw : ShmBufferExData) (size : Nat) (hpos : 0 < size)
    (hsize : size ≤ 2 ^ 31) {trace : List (Op × Out)} {s : ShmBufferExData}
    (run : Run MessageQueue.step (fun _ => Op.Fits size)
      (raw.init (size + ShmBufferExData.sizeof)) trace s) :
    let st := (exec (Stream.step (size - 1)) .fresh (trace.map Prod.fst)).2
    ∀ n p, st.gone ≤ n → st.log[n]? = some p → ∀ dir maxSize,
      Exact s st n p dir maxSize ↔ maxSize < p.length := by
  obtain ⟨-, htracks⟩ := run_tracks raw hpos hsize run
  exact fun n p hn hp dir maxSize => exact_iff htracks hn hp dir maxSize

theorem run_exact_iff_one :
    ∃ trace s, trace.map Prod.fst = [.push (.single [7] (by decide))] ∧
      Run MessageQueue.step (fun _ => Op.Fits 4096) (blank.init (4096 + ShmBufferExData.sizeof))
        trace s ∧
      ¬ Exact s ⟨.returnError, [[7]], 0⟩ 0 [7] .next 100 ∧
      Exact s ⟨.returnError, [[7]], 0⟩ 0 [7] .next 0 := by
  have run : Run MessageQueue.step (fun _ => Op.Fits 4096)
      (blank.init (4096 + ShmBufferExData.sizeof)) _ _ :=
    .next (i := Op.push (.single [7] (by decide))) .start (by change recSize _ ≤ _; decide) rfl
  have hiff := run_exact_iff blank 4096 (by decide) (by decide) run
  have hlong := hiff 0 [7] (by decide) (by decide) .next 100
  have hshort := hiff 0 [7] (by decide) (by decide) .next 0
  exact ⟨_, _, rfl, run, fun h => absurd (hlong.mp h) (by decide), hshort.mpr (by decide)⟩

theorem run_get_misreads :
    ¬ ∀ (raw : ShmBufferExData) (size : Nat) (trace : List (Op × Out)) (s : ShmBufferExData),
      4096 ∣ size → 0 < size → size ≤ 2 ^ 31 →
      Run MessageQueue.step (fun _ => Op.Fits size) (raw.init (size + ShmBufferExData.sizeof))
        trace s →
      let st := (exec (Stream.step (size - 1)) .fresh (trace.map Prod.fst)).2
      ∀ n p, st.gone ≤ n → st.log[n]? = some p → ∀ dir maxSize, Exact s st n p dir maxSize := by
  intro hall
  have run : Run MessageQueue.step (fun _ => Op.Fits 4096)
      (blank.init (4096 + ShmBufferExData.sizeof)) _ _ :=
    .next (i := Op.push (.single [7] (by decide))) .start (by change recSize _ ≤ _; decide) rfl
  have hexact := hall blank 4096 _ _ (by decide) (by decide) (by decide) run 0 [7] (by decide)
    (by decide) .next 100
  obtain ⟨-, htracks⟩ := run_tracks blank (by decide) (by decide) run
  exact absurd ((exact_iff htracks (by decide) (by decide) .next 100).mp hexact) (by decide)

end HiloUtils.PositionalGet
