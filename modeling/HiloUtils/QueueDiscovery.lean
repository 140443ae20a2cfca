import HiloUtils.StatusCheck
import HiloUtils.Category

/-! The queues a check finds against those that were opened. The suffix is
searched anywhere in a counter name but cut off its end, a long name loses it in
the buffer, and the dictionary folds case and hides the last byte. -/

namespace HiloUtils.QueueDiscovery

open Word CString Dictionary DictionaryMap Category StatusCheck
open CounterIndex (Names)

def Fits (name : CName) : Prop :=
  counterPrefix.length + strlen name + counterSuffix.length < nameMax

/-- The names under the prefix are counters of the queues. -/
def OnlyOf (queues names : List CName) : Prop :=
  ∀ m ∈ names, StartsWith prefixName m.1 → ∃ q ∈ queues, ∃ kind, m = cName kind q

structure Grounded (queues : List CName) (s : Shared) : Prop where
  stores : ∃ names, Stores s.dict names ∧ OnlyOf queues names
  files : ∀ q ∈ queues, (s.files (cut nameMax q)).isSome

def Among (queues : List CName) : Pc → Prop
  | .opened q => q.name ∈ queues
  | .assign q _ => q.name ∈ queues
  | .store q _ _ => q.name ∈ queues
  | _ => True

section

variable {α : Type*} {d : α} {t x z : List α}

end

theorem cut_of_lt {n : Nat} {name : CName} (h : strlen name < n) : cut n name = name :=
  Subtype.ext (List.take_of_length_le (Nat.le_sub_one_of_lt h))

theorem file_eq {name : CName} (h : Fits name) : cut nameMax name = name := by
  have hfits : counterPrefix.length + strlen name + counterSuffix.length < nameMax := h
  exact cut_of_lt (by omega)

section

variable {s : Shared} {names queues : List CName}

end

section

variable {s s' : Shared} {queues : List CName} {pc pc' : Pc} {move : Move} {e e' : Event}

theorem Among.mono (h : Among queues pc) (more : List CName) : Among (queues ++ more) pc := by
  cases pc with
  | opened q => exact List.mem_append_left _ h
  | assign q kind => exact List.mem_append_left _ h
  | store q kind value => exact List.mem_append_left _ h
  | _ => trivial

theorem Grounded.stays (h : Grounded queues s) (hdict : s'.dict = s.dict)
    (hfiles : s'.files = s.files) : Grounded queues s' := by
  refine ⟨?_, ?_⟩
  · rw [hdict]
    exact h.stores
  · rw [hfiles]
    exact h.files

end

section

variable {P : Type*} [DecidableEq P] {raw : Names} {trace : List ((P × Move) × Event)}
  {g : System P}

end

section

variable {raw : Names} {trace : List ((Nat × Move) × Event)} {g : System Nat} {name : CName}

end

section

variable {P : Type*} [DecidableEq P] {raw : Names} {trace : List ((P × Move) × Event)}
  {g : System P}

end

end HiloUtils.QueueDiscovery
