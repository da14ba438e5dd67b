/-
# Step functions

A list of keys with values is a step function: its value at a point is that of the last key at or
before the point (`valueAt`). Two lists are joined into one list of pairs (`joinSteps`), and a list
is compressed by leaving out the steps that do not change the value (`pushStep`, `pushSteps`).
-/
import Mathlib.Data.Finset.Max
import Mathlib.Data.List.Chain
import Mathlib.Order.Lattice

namespace Ytsaurus.Lib

open List

variable {κ τ σ : Type} [LinearOrder κ]

/-- The value of a step function, with a value before its first key. -/
def valueAt (value : τ) : List (κ × τ) → κ → τ
  | [], _ => value
  | (key, value') :: steps, x => if key ≤ x then valueAt value' steps x else value

@[simp] theorem valueAt_nil (value : τ) (x : κ) : valueAt value [] x = value := rfl

theorem valueAt_cons_of_le {key x : κ} (h : key ≤ x) (value value' : τ) (steps : List (κ × τ)) :
    valueAt value ((key, value') :: steps) x = valueAt value' steps x := if_pos h

theorem valueAt_cons_of_lt {key x : κ} (h : x < key) (value value' : τ) (steps : List (κ × τ)) :
    valueAt value ((key, value') :: steps) x = value := if_neg (not_le.mpr h)

variable {x : κ}

theorem valueAt_of_lt {value : τ} : ∀ {steps : List (κ × τ)}, (∀ step ∈ steps, x < step.1) →
    valueAt value steps x = value
  | [], _ => rfl
  | (_, _) :: _, h => valueAt_cons_of_lt (h _ mem_cons_self) _ _ _

theorem valueAt_append_singleton (key : κ) (value' : τ) (x : κ) :
    ∀ (value : τ) (steps : List (κ × τ)), (∀ step ∈ steps, step.1 ≤ key) →
    valueAt value (steps ++ [(key, value')]) x = if key ≤ x then value' else valueAt value steps x
  | value, [], _ => rfl
  | value, (first, value'') :: steps, h => by
    obtain ⟨hf, hr⟩ := forall_mem_cons.mp h
    rw [cons_append, valueAt, valueAt, valueAt_append_singleton key value' x value'' steps hr]
    by_cases hle : first ≤ x
    · rw [if_pos hle, if_pos hle]
    · rw [if_neg hle, if_neg hle, if_neg fun hk => hle (hf.trans hk)]

theorem valueAt_append_of_le : ∀ (value : τ) (steps steps' : List (κ × τ)),
    (∀ step ∈ steps, step.1 ≤ x) →
    valueAt value (steps ++ steps') x = valueAt ((steps.getLast?.map Prod.snd).getD value) steps' x
  | _, [], _, _ => rfl
  | value, (key, value') :: steps, steps', h => by
    obtain ⟨hk, hr⟩ := forall_mem_cons.mp h
    rw [cons_append, valueAt_cons_of_le hk, valueAt_append_of_le value' steps steps' hr, getLast?_cons]
    cases steps.getLast? <;> rfl

theorem valueAt_congr {x y : κ} (hle : x ≤ y) : ∀ {steps : List (κ × τ)} (value : τ),
    (∀ step ∈ steps, step.1 ≤ y → step.1 ≤ x) → valueAt value steps y = valueAt value steps x
  | [], _, _ => rfl
  | (key, value') :: steps, value, h => by
    obtain ⟨hkey, hr⟩ := forall_mem_cons.mp h
    by_cases hkx : key ≤ x
    · rw [valueAt_cons_of_le (hkx.trans hle), valueAt_cons_of_le hkx, valueAt_congr hle value' hr]
    · rw [valueAt_cons_of_lt (not_le.mp hkx), valueAt_cons_of_lt (not_le.mp fun hky => hkx (hkey hky))]

theorem exists_last_key {keys : List κ} (h : ∃ key ∈ keys, key ≤ x) :
    ∃ key ∈ keys, key ≤ x ∧ ∀ key' ∈ keys, key' ≤ x → key' ≤ key := by
  obtain ⟨key, hk, hle⟩ := h
  obtain ⟨last, hlast, ha⟩ :=
    (keys.filter (· ≤ x)).toFinset.exists_max_image id ⟨key, by simp [hk, hle]⟩
  simp only [mem_toFinset, mem_filter, decide_eq_true_eq] at hlast ha
  exact ⟨last, hlast.1, hlast.2, fun key' hk' hle' => ha key' ⟨hk', hle'⟩⟩

theorem valueAt_map (f : τ → σ) (x : κ) : ∀ (value : τ) (steps : List (κ × τ)),
    valueAt (f value) (steps.map fun step => (step.1, f step.2)) x = f (valueAt value steps x)
  | value, [] => rfl
  | value, (key, value') :: steps => by
    rw [map_cons, valueAt, valueAt, valueAt_map f x value' steps]
    split_ifs <;> rfl

/-! ### Joining -/

/-- The pair of two step functions, with a step wherever one of them has one. -/
def joinSteps : List (κ × τ) → List (κ × σ) → τ → σ → List (κ × τ × σ)
  | [], [], _, _ => []
  | (key, value) :: steps, [], _, value' => (key, value, value') :: joinSteps steps [] value value'
  | [], (key, value') :: steps', value, _ =>
    (key, value, value') :: joinSteps [] steps' value value'
  | (key, new) :: steps, (key', new') :: steps', value, value' =>
    if key < key' then (key, new, value') :: joinSteps steps ((key', new') :: steps') new value'
    else if key' < key then (key', value, new') :: joinSteps ((key, new) :: steps) steps' value new'
    else (key, new, new') :: joinSteps steps steps' new new'
termination_by steps steps' => steps.length + steps'.length

section Join

variable {steps : List (κ × τ)} {steps' : List (κ × σ)} {value new : τ} {value' new' : σ}
  {key key' : κ}

theorem joinSteps_left : joinSteps ((key, new) :: steps) [] value value' =
    (key, new, value') :: joinSteps steps [] new value' := by rw [joinSteps]

theorem joinSteps_right : joinSteps [] ((key, new') :: steps') value value' =
    (key, value, new') :: joinSteps [] steps' value new' := by rw [joinSteps]

theorem joinSteps_lt (h : key < key') :
    joinSteps ((key, new) :: steps) ((key', new') :: steps') value value' =
    (key, new, value') :: joinSteps steps ((key', new') :: steps') new value' := by
  rw [joinSteps, if_pos h]

theorem joinSteps_gt (h : key' < key) :
    joinSteps ((key, new) :: steps) ((key', new') :: steps') value value' =
    (key', value, new') :: joinSteps ((key, new) :: steps) steps' value new' := by
  rw [joinSteps, if_neg h.not_gt, if_pos h]

theorem joinSteps_eq : joinSteps ((key, new) :: steps) ((key, new') :: steps') value value' =
    (key, new, new') :: joinSteps steps steps' new new' := by
  rw [joinSteps, if_neg (lt_irrefl key), if_neg (lt_irrefl key)]

end Join

/-- The join step by step: the next step is one of the first list, one of the second or one of both.
-/
@[elab_as_elim]
theorem joinSteps_induct {P : List (κ × τ) → List (κ × σ) → τ → σ → List (κ × τ × σ) → Prop}
    (nil : ∀ value value', P [] [] value value' [])
    (left : ∀ key new steps steps' value value', (∀ step' ∈ steps'.head?, key < step'.1) →
      P steps steps' new value' (joinSteps steps steps' new value') →
      P ((key, new) :: steps) steps' value value'
        ((key, new, value') :: joinSteps steps steps' new value'))
    (right : ∀ key new' steps steps' value value', (∀ step ∈ steps.head?, key < step.1) →
      P steps steps' value new' (joinSteps steps steps' value new') →
      P steps ((key, new') :: steps') value value'
        ((key, value, new') :: joinSteps steps steps' value new'))
    (both : ∀ key new new' steps steps' value value',
      P steps steps' new new' (joinSteps steps steps' new new') →
      P ((key, new) :: steps) ((key, new') :: steps') value value'
        ((key, new, new') :: joinSteps steps steps' new new')) :
    ∀ (steps : List (κ × τ)) (steps' : List (κ × σ)) (value : τ) (value' : σ),
      P steps steps' value value' (joinSteps steps steps' value value')
  | [], [], value, value' => by
    rw [joinSteps]
    exact nil value value'
  | (key, new) :: steps, [], value, value' => by
    rw [joinSteps_left]
    exact left _ _ _ _ _ _ (by simp) (joinSteps_induct nil left right both _ _ _ _)
  | [], (key, new') :: steps', value, value' => by
    rw [joinSteps_right]
    exact right _ _ _ _ _ _ (by simp) (joinSteps_induct nil left right both _ _ _ _)
  | (key, new) :: steps, (key', new') :: steps', value, value' => by
    rcases lt_trichotomy key key' with hlt | rfl | hgt
    · rw [joinSteps_lt hlt]
      exact left _ _ _ _ _ _ (by simpa using hlt) (joinSteps_induct nil left right both _ _ _ _)
    · rw [joinSteps_eq]
      exact both _ _ _ _ _ _ _ (joinSteps_induct nil left right both _ _ _ _)
    · rw [joinSteps_gt hgt]
      exact right _ _ _ _ _ _ (by simpa using hgt) (joinSteps_induct nil left right both _ _ _ _)
termination_by steps steps' => steps.length + steps'.length

theorem valueAt_of_lt_head {value : τ} :
    ∀ {steps : List (κ × τ)}, (∀ step ∈ steps.head?, x < step.1) → valueAt value steps x = value
  | [], _ => rfl
  | (_, _) :: _, h => valueAt_cons_of_lt (h _ rfl) _ _ _

variable {P : κ → Prop}

section

variable (steps : List (κ × τ)) (steps' : List (κ × σ)) (value : τ) (value' : σ)

theorem joinSteps_ne_nil : steps ≠ [] ∨ steps' ≠ [] → joinSteps steps steps' value value' ≠ [] := by
  induction steps, steps', value, value' using joinSteps_induct with
  | nil => simp
  | _ => exact fun _ => cons_ne_nil _ _

theorem valueAt_joinSteps (x : κ) :
    valueAt (value, value') (joinSteps steps steps' value value') x =
      (valueAt value steps x, valueAt value' steps' x) := by
  induction steps, steps', value, value' using joinSteps_induct with
  | nil => rfl
  | left key new steps steps' value value' hlt ih
  | right key new steps steps' value value' hlt ih =>
    rcases le_or_gt key x with hle | hx
    · rw [valueAt_cons_of_le hle, valueAt_cons_of_le hle, ih]
    · rw [valueAt_cons_of_lt hx, valueAt_cons_of_lt hx, valueAt_of_lt_head fun step hs =>
        hx.trans (hlt step hs)]
  | both key new new' steps steps' value value' ih =>
    rcases le_or_gt key x with hle | hx
    · rw [valueAt_cons_of_le hle, valueAt_cons_of_le hle, valueAt_cons_of_le hle, ih]
    · rw [valueAt_cons_of_lt hx, valueAt_cons_of_lt hx, valueAt_cons_of_lt hx]

theorem forall_mem_joinSteps : (∀ step ∈ joinSteps steps steps' value value', P step.1) ↔
      (∀ step ∈ steps, P step.1) ∧ ∀ step ∈ steps', P step.1 := by
  induction steps, steps', value, value' using joinSteps_induct with
  | nil => simp
  | left _ _ _ _ _ _ _ ih => rw [forall_mem_cons, forall_mem_cons, ih, and_assoc]
  | right _ _ _ _ _ _ _ ih => rw [forall_mem_cons, forall_mem_cons, ih, and_left_comm]
  | both _ _ _ _ _ _ _ ih =>
    rw [forall_mem_cons, forall_mem_cons, forall_mem_cons, ih, and_and_left]

/-- The last value of steps that start from a value. -/
def lastValue (value : τ) (steps : List (κ × τ)) : τ := (steps.getLast?.map Prod.snd).getD value

omit [LinearOrder κ] in
theorem lastValue_cons (value value' : τ) (key : κ) (steps : List (κ × τ)) :
    lastValue value ((key, value') :: steps) = lastValue value' steps := by
  rw [lastValue, lastValue, getLast?_cons]
  cases steps.getLast? <;> rfl

/-- Steps of the second list beyond the first one come after the rest of the join. -/
theorem joinSteps_append_right :
    ∀ (steps : List (κ × τ)) (steps' beyond : List (κ × σ)) (value : τ) (value' : σ),
    (∀ step ∈ steps, ∀ step' ∈ beyond, step.1 < step'.1) →
    joinSteps steps (steps' ++ beyond) value value' = joinSteps steps steps' value value' ++
        beyond.map fun step => (step.1, lastValue value steps, step.2)
  | [], [], [], _, _, _ => by simp [joinSteps]
  | [], [], (key, new) :: beyond, value, value', h => by
    have ih := joinSteps_append_right [] [] beyond value new (by simp)
    rw [nil_append] at ih ⊢
    rw [joinSteps_right, ih, joinSteps, joinSteps]
    rfl
  | [], (key, new) :: steps', beyond, value, value', h => by
    rw [cons_append, joinSteps_right, joinSteps_right,
      joinSteps_append_right [] steps' beyond value new h, cons_append]
  | (key, new) :: steps, [], [], _, _, _ => by simp
  | (key, new) :: steps, [], (key', new') :: beyond, value, value', h => by
    obtain ⟨hk, hr⟩ := forall_mem_cons.mp h
    have ih := joinSteps_append_right steps [] ((key', new') :: beyond) new value' hr
    rw [nil_append] at ih ⊢
    rw [joinSteps_lt (hk _ mem_cons_self), joinSteps_left, ih, lastValue_cons, cons_append]
  | (key, new) :: steps, (key', new') :: steps', beyond, value, value', h => by
    have hr := (forall_mem_cons.mp h).2
    rw [cons_append]
    rcases lt_trichotomy key key' with hlt | heq | hgt
    · have ih := joinSteps_append_right steps ((key', new') :: steps') beyond new value' hr
      rw [cons_append] at ih
      rw [joinSteps_lt hlt, joinSteps_lt hlt, ih, lastValue_cons, cons_append]
    · subst heq
      rw [joinSteps_eq, joinSteps_eq, joinSteps_append_right steps steps' beyond new new' hr,
        lastValue_cons, cons_append]
    · have ih := joinSteps_append_right ((key, new) :: steps) steps' beyond value new' h
      rw [joinSteps_gt hgt, joinSteps_gt hgt, ih, cons_append]
termination_by steps steps' beyond => steps.length + steps'.length + beyond.length

theorem lastValue_joinSteps : lastValue (value, value') (joinSteps steps steps' value value') =
      (lastValue value steps, lastValue value' steps') := by
  induction steps, steps', value, value' using joinSteps_induct with
  | nil => rfl
  | left _ _ _ _ _ _ _ ih | right _ _ _ _ _ _ _ ih => rw [lastValue_cons, ih, lastValue_cons]
  | both _ _ _ _ _ _ _ ih => rw [lastValue_cons, ih, lastValue_cons, lastValue_cons]

end

def Increasing (steps : List (κ × τ)) : Prop := steps.Pairwise fun step step' => step.1 < step'.1

variable {steps : List (κ × τ)}

theorem increasing_cons {step : κ × τ} :
    Increasing (step :: steps) ↔ (∀ step' ∈ steps, step.1 < step'.1) ∧ Increasing steps :=
  pairwise_cons

variable {key : κ}

theorem Increasing.forall_lt : ∀ {steps : List (κ × τ)}, Increasing steps →
    (∀ step ∈ steps.head?, key < step.1) → ∀ step ∈ steps, key < step.1
  | [], _, _ => by simp
  | step :: _, h, hlt =>
    forall_mem_cons.mpr ⟨hlt step rfl, fun s hs => (hlt step rfl).trans ((increasing_cons.mp h).1 s hs)⟩

theorem valueAt_of_mem : ∀ {steps : List (κ × τ)}, Increasing steps → ∀ step ∈ steps, ∀ value : τ,
    valueAt value steps step.1 = step.2
  | (key, new) :: steps, h, step, hstep, value => by
    obtain ⟨ha, hsteps⟩ := increasing_cons.mp h
    rcases mem_cons.mp hstep with rfl | hstep
    · rw [valueAt_cons_of_le le_rfl, valueAt_of_lt ha]
    · rw [valueAt_cons_of_le (ha step hstep).le, valueAt_of_mem hsteps step hstep]

theorem le_getLast (h : Increasing steps) (hne : steps ≠ []) :
    ∀ step ∈ steps, step.1 ≤ (steps.getLast hne).1 := by
  intro step hs
  rw [← dropLast_append_getLast hne] at h hs
  rcases mem_append.mp hs with hs | hs
  · exact ((pairwise_append.mp h).2.2 step hs _ (mem_singleton_self _)).le
  · rw [mem_singleton.mp hs]

theorem exists_step_valueAt : ∀ {steps : List (κ × τ)}, Increasing steps →
    (∃ step ∈ steps, step.1 ≤ x) →
    ∀ value : τ, ∃ step ∈ steps, step.1 ≤ x ∧ valueAt value steps x = step.2
  | [], _, h, _ => absurd h (by simp)
  | (key, new) :: steps, h, hstarts, value => by
    obtain ⟨ha, hsteps⟩ := increasing_cons.mp h
    by_cases hm : ∃ step ∈ steps, step.1 ≤ x
    · obtain ⟨step, hstep, hle, hv⟩ := exists_step_valueAt hsteps hm new
      have hk : key < step.1 := ha step hstep
      refine ⟨step, mem_cons_of_mem _ hstep, hle, ?_⟩
      rw [valueAt_cons_of_le (hk.le.trans hle), hv]
    · have hk : key ≤ x := ((exists_mem_cons_iff _ _ _).mp hstarts).resolve_right hm
      refine ⟨(key, new), mem_cons_self, hk, ?_⟩
      rw [valueAt_cons_of_le hk,
        valueAt_of_lt fun step hstep => not_le.mp fun hle => hm ⟨step, hstep, hle⟩]

theorem increasing_joinSteps (steps : List (κ × τ)) (steps' : List (κ × σ)) (value : τ)
    (value' : σ) :
    Increasing steps → Increasing steps' → Increasing (joinSteps steps steps' value value') := by
  induction steps, steps', value, value' using joinSteps_induct with
  | nil => exact fun _ _ => .nil
  | left _ _ _ _ _ _ hlt ih =>
    intro h h'
    obtain ⟨hkey, h⟩ := increasing_cons.mp h
    exact increasing_cons.mpr ⟨(forall_mem_joinSteps _ _ _ _).mpr ⟨hkey, h'.forall_lt hlt⟩, ih h h'⟩
  | right _ _ _ _ _ _ hlt ih =>
    intro h h'
    obtain ⟨hkey, h'⟩ := increasing_cons.mp h'
    exact increasing_cons.mpr ⟨(forall_mem_joinSteps _ _ _ _).mpr ⟨h.forall_lt hlt, hkey⟩, ih h h'⟩
  | both _ _ _ _ _ _ _ ih =>
    intro h h'
    obtain ⟨hkey, h⟩ := increasing_cons.mp h
    obtain ⟨hkey', h'⟩ := increasing_cons.mp h'
    exact increasing_cons.mpr ⟨(forall_mem_joinSteps _ _ _ _).mpr ⟨hkey, hkey'⟩, ih h h'⟩

/-! ### Compressing -/

section Push

variable [DecidableEq τ]

def pushStep (out : List (κ × τ)) (key : κ) (value : τ) : List (κ × τ) :=
  if out.getLast?.map Prod.snd = some value then out else out ++ [(key, value)]

def pushSteps (out : List (κ × τ)) (steps : List (κ × τ)) : List (κ × τ) :=
  steps.foldl (fun out step => pushStep out step.1 step.2) out

variable {out : List (κ × τ)}

section

omit [LinearOrder κ]

theorem forall_mem_pushStep (h : ∀ step ∈ out, P step.1) (hk : P key)
    (value : τ) : ∀ step ∈ pushStep out key value, P step.1 := by
  unfold pushStep
  split_ifs
  · exact h
  · exact forall_mem_append.mpr ⟨h, forall_mem_singleton.mpr hk⟩

theorem forall_mem_pushSteps : ∀ (steps out : List (κ × τ)), (∀ step ∈ out, P step.1) →
    (∀ step ∈ steps, P step.1) → ∀ step ∈ pushSteps out steps, P step.1
  | [], _, ho, _ => ho
  | (key, value) :: steps, out, ho, hs => by
    obtain ⟨hk, hs⟩ := forall_mem_cons.mp hs
    exact forall_mem_pushSteps steps _ (forall_mem_pushStep ho hk value) hs

theorem head?_pushSteps : ∀ (steps : List (κ × τ)) {out : List (κ × τ)}, out ≠ [] →
    (pushSteps out steps).head? = out.head?
  | [], _, _ => rfl
  | (key, value) :: steps, out, ho => by
    have hp : pushStep out key value ≠ [] ∧ (pushStep out key value).head? = out.head? := by
      unfold pushStep
      split_ifs
      · exact ⟨ho, rfl⟩
      · exact ⟨by simp, head?_append_of_ne_nil _ ho⟩
    rw [pushSteps, foldl_cons, ← pushSteps, head?_pushSteps steps hp.1, hp.2]

theorem mem_pushSteps_of_mem {step : κ × τ} : ∀ (steps : List (κ × τ)) {out : List (κ × τ)},
    step ∈ out → step ∈ pushSteps out steps
  | [], _, h => h
  | (key, value) :: steps, out, h => by
    have hp : step ∈ pushStep out key value := by
      unfold pushStep
      split_ifs
      · exact h
      · exact mem_append_left _ h
    exact mem_pushSteps_of_mem steps hp

theorem getLast?_pushSteps : ∀ (steps out : List (κ × τ)), steps ≠ [] →
    (pushSteps out steps).getLast?.map Prod.snd = steps.getLast?.map Prod.snd
  | [], _, h => absurd rfl h
  | [(key, value)], out, _ => by
    have hp : (pushStep out key value).getLast?.map Prod.snd = some value := by
      unfold pushStep
      split_ifs with hl
      · exact hl
      · simp
    exact hp
  | (key, value) :: step :: steps, out, _ => by
    rw [pushSteps, foldl_cons, ← pushSteps, getLast?_pushSteps (step :: steps) _ (cons_ne_nil _ _),
      getLast?_cons_cons]

end

theorem pushSteps_lt_iff {bound : κ} {last : τ} :
    ∀ (steps out : List (κ × τ)), (∀ step ∈ out, step.1 < bound) →
    (∀ step ∈ steps, bound ≤ step.1) → out.getLast?.map Prod.snd = some last →
    ((∀ step ∈ pushSteps out steps, step.1 < bound) ↔ ∀ step ∈ steps, step.2 = last)
  | [], out, ho, _, _ => by simpa [pushSteps] using ho
  | (key, value) :: steps, out, ho, hsteps, hl => by
    obtain ⟨hk, hr⟩ := forall_mem_cons.mp hsteps
    rw [pushSteps, foldl_cons, ← pushSteps, forall_mem_cons]
    by_cases hv : value = last
    · have hsame : pushStep out key value = out := if_pos (hv ▸ hl)
      rw [hsame, pushSteps_lt_iff steps out ho hr hl]
      simp [hv]
    · have hn : pushStep out key value = out ++ [(key, value)] :=
        if_neg fun h => hv (Option.mem_unique h hl)
      rw [hn]
      refine iff_of_false (fun h => ?_) fun h => hv h.1
      exact absurd (h (key, value) (mem_pushSteps_of_mem steps (by simp))) (not_lt.mpr hk)

omit [DecidableEq τ] in
theorem valueAt_of_ge {last : τ} : ∀ {value : τ} {steps : List (κ × τ)},
    (∀ step ∈ steps, step.1 ≤ x) →
    steps.getLast?.map Prod.snd = some last → valueAt value steps x = last
  | _, [], _, h => by simp at h
  | value, [(key, value')], hle, h => by
    rw [valueAt_cons_of_le (hle _ mem_cons_self)]
    simpa using h
  | value, (key, value') :: step :: steps, hle, h => by
    rw [valueAt_cons_of_le (hle _ mem_cons_self)]
    refine valueAt_of_ge ((forall_mem_cons.mp hle).2) ?_
    simpa using h

theorem valueAt_pushStep (h : ∀ step ∈ out, step.1 ≤ key) (value value' : τ) (x : κ) :
    valueAt value (pushStep out key value') x = if key ≤ x then value' else valueAt value out x := by
  unfold pushStep
  split_ifs with hlast hle hle
  · exact valueAt_of_ge (fun step hs => (h step hs).trans hle) hlast
  · rfl
  · rw [valueAt_append_singleton key value' x value out h, if_pos hle]
  · rw [valueAt_append_singleton key value' x value out h, if_neg hle]

/-- The value after all steps: theirs from the first on, the old one before. -/
theorem valueAt_pushSteps (value value' : τ) (x : κ) :
    ∀ (steps out : List (κ × τ)), Increasing steps →
    (∀ step ∈ out, ∀ step' ∈ steps, step.1 < step'.1) → valueAt value (pushSteps out steps) x =
      if ∃ step ∈ steps, step.1 ≤ x then valueAt value' steps x else valueAt value out x
  | [], out, _, _ => by simp [pushSteps]
  | (key, new) :: steps, out, hsteps, ho => by
    obtain ⟨hlt, hsteps⟩ := increasing_cons.mp hsteps
    have hk : ∀ step ∈ out, step.1 < key := fun step hstep => ho step hstep _ mem_cons_self
    have hp : ∀ step ∈ pushStep out key new, ∀ step' ∈ steps, step.1 < step'.1 :=
      forall_mem_pushStep (P := fun k => ∀ step' ∈ steps, k < step'.1)
        (fun step hstep step' hstep' => ho step hstep step' (mem_cons_of_mem _ hstep')) hlt new
    have ih := valueAt_pushSteps value new x steps (pushStep out key new) hsteps hp
    rw [valueAt_pushStep (fun step hstep => (hk step hstep).le)] at ih
    rw [pushSteps, foldl_cons, ← pushSteps, ih]
    rcases le_or_gt key x with hle | hgt
    · have hstarts : ∃ step ∈ (key, new) :: steps, step.1 ≤ x := ⟨(key, new), mem_cons_self, hle⟩
      rw [valueAt_cons_of_le hle, if_pos hstarts, if_pos hle]
      split_ifs with hm
      · rfl
      · rw [valueAt_of_lt]
        exact fun step hstep => not_le.mp fun hx => hm ⟨step, hstep, hx⟩
    · have hn : ¬∃ step ∈ steps, step.1 ≤ x := fun ⟨step, hstep, hx⟩ =>
        absurd (hgt.trans (hlt step hstep)) (not_lt.mpr hx)
      have hn' : ¬∃ step ∈ (key, new) :: steps, step.1 ≤ x := by
        simpa only [exists_mem_cons_iff, not_or, not_le] using And.intro hgt hn
      rw [if_neg hn, if_neg hn', if_neg (not_le.mpr hgt)]

/-- Keys increase and neighbours differ. -/
def Compressed (steps : List (κ × τ)) : Prop :=
  steps.IsChain fun step step' => step.1 < step'.1 ∧ step.2 ≠ step'.2

omit [DecidableEq τ] in
theorem Compressed.increasing (h : Compressed steps) : Increasing steps :=
  (h.imp fun _ _ h => h.1).pairwise

theorem compressed_pushStep (h : Compressed out) (hk : ∀ step ∈ out, step.1 < key)
    (value : τ) : Compressed (pushStep out key value) := by
  unfold pushStep
  split_ifs with hl
  · exact h
  · refine isChain_append.mpr ⟨h, isChain_singleton _, fun step hs step' hs' => ?_⟩
    obtain rfl : (key, value) = step' := by simpa using hs'
    refine ⟨hk step (mem_of_getLast? hs), fun heq => hl ?_⟩
    rw [Option.mem_def.mp hs, Option.map_some, heq]

theorem compressed_pushSteps : ∀ (steps out : List (κ × τ)), Increasing steps → Compressed out →
    (∀ step ∈ out, ∀ step' ∈ steps, step.1 < step'.1) → Compressed (pushSteps out steps)
  | [], _, _, ho, _ => ho
  | (key, new) :: steps, out, hsteps, ho, hlt => by
    obtain ⟨hk, hsteps⟩ := increasing_cons.mp hsteps
    refine compressed_pushSteps steps _ hsteps (compressed_pushStep ho (fun step hstep => ?_) new) ?_
    · exact hlt step hstep _ mem_cons_self
    · exact forall_mem_pushStep (P := fun k => ∀ step' ∈ steps, k < step'.1)
        (fun step hstep step' hstep' => hlt step hstep step' (mem_cons_of_mem _ hstep')) hk new

end Push

end Ytsaurus.Lib
