import HiloUtils.CounterUpdate

/-! Counting on a local batch and handing it over gives the counter the calls
themselves would have given within the same second. -/

namespace HiloUtils.LocalBatch

open Word HistoryCounterData

inductive Event
  | increment
  | addVolume (v : Int)

def count (h : HistoryCounterData) : Int × Event → HistoryCounterData
  | (clockMs, .increment) => h.increment clockMs
  | (clockMs, .addVolume v) => h.addVolume clockMs v

def collect (l : HistoryCounterLocal) : Event → HistoryCounterLocal
  | .increment => l.increment
  | .addVolume v => l.addVolume v

def Event.volume : Event → Int
  | .increment => 0
  | .addVolume v => v

theorem count_eq_add {h : HistoryCounterData} (hw : Words h) (call : Int × Event) :
    count h call = (h.update call.1).add 1 call.2.volume := by
  obtain ⟨clockMs, event⟩ := call
  cases event with
  | increment => exact increment_eq_add hw clockMs
  | addVolume v => rfl

theorem collect_eq (l : HistoryCounterLocal) (hv : IsI64 l.volume) (event : Event) :
    collect l event = ⟨i64 (l.count + 1), i64 (l.volume + event.volume)⟩ := by
  cases event with
  | increment => simp only [collect, HistoryCounterLocal.increment, Event.volume, Int.add_zero,
      hv.i64_eq]
  | addVolume v => rfl

theorem collect_isI64 {l : HistoryCounterLocal} (hv : IsI64 l.volume) (event : Event) :
    IsI64 (collect l event).volume := by
  rw [collect_eq l hv]
  exact isI64_i64 _

/-- Once the second has begun, every further call adds to what the batch
already holds. -/
theorem foldl_count {h : HistoryCounterData} (hw : Words h) {a : Int} {l : HistoryCounterLocal}
    (hv : IsI64 l.volume) {calls : List (Int × Event)}
    (hsec : ∀ call ∈ calls, clockSecond call.1 = clockSecond a) :
    calls.foldl count ((h.update a).add l.count l.volume) =
      (h.update a).add ((calls.map Prod.snd).foldl collect l).count
        ((calls.map Prod.snd).foldl collect l).volume := by
  induction calls generalizing l with
  | nil => rfl
  | cons call calls ih =>
    have hnow : clockSecond call.1 = clockSecond a := hsec call (by simp)
    have hstep : count ((h.update a).add l.count l.volume) call =
        (h.update a).add (collect l call.2).count (collect l call.2).volume := by
      rw [count_eq_add ((hw.update a).add _ _), update_add_update h _ _ hnow, add_add,
        collect_eq l hv, add_i64]
    rw [List.map_cons, List.foldl_cons, List.foldl_cons, hstep]
    exact ih (collect_isI64 hv call.2) fun c hc => hsec c (by simp [hc])

/-- A batch of calls made in one second and handed over in that second leaves
both counters as the calls themselves would. -/
theorem transferTo_eq_count {h : HistoryCounterData} (hw : Words h) {calls : List (Int × Event)}
    (hne : calls ≠ []) {clockMs : Int}
    (hsec : ∀ call ∈ calls, clockSecond call.1 = clockSecond clockMs) :
    ((calls.map Prod.snd).foldl collect ⟨0, 0⟩).transferTo h clockMs =
      (⟨0, 0⟩, calls.foldl count h) := by
  obtain ⟨call, calls, rfl⟩ := List.exists_cons_of_ne_nil hne
  have hnow : clockSecond call.1 = clockSecond clockMs := hsec call (by simp)
  have hfirst : count h call = (h.update clockMs).add (collect ⟨0, 0⟩ call.2).count
      (collect ⟨0, 0⟩ call.2).volume := by
    rw [count_eq_add hw, update_congr h hnow, collect_eq _ isI64_zero, add_i64, Int.zero_add,
      Int.zero_add]
  rw [List.map_cons, List.foldl_cons, List.foldl_cons, hfirst,
    foldl_count hw (collect_isI64 isI64_zero call.2) fun c hc => hsec c (by simp [hc])]
  rfl

theorem transferTo_eq_count_clear :
    (([(400500, Event.increment), (400900, Event.addVolume 7)].map Prod.snd).foldl collect
        ⟨0, 0⟩).transferTo (clear 0) 400999 =
      (⟨0, 0⟩, [(400500, Event.increment), (400900, Event.addVolume 7)].foldl count (clear 0)) :=
  @transferTo_eq_count (clear 0) (Words.clear 0)
    [(400500, Event.increment), (400900, Event.addVolume 7)] (by simp) 400999 (by decide)

end HiloUtils.LocalBatch
