/-
# Calls that may fail

What a call of the modelled code gives back: a value, or the way in which it fails to return. The
checks and the accesses of the source that can fail are here with what they give when they do not,
and with the rules for loops of such calls over a list (`mapM_ok`, `foldlM_ok`, `loopUntil`).
-/
import Mathlib

namespace Ytsaurus

/-- How a call can fail to return: a `YT_VERIFY` aborts the process, an
exception is thrown, an element is read that a container does not have, or the
fuel of the model runs out (the source has no such outcome). -/
inductive Failure where
  | verify
  | exception (message : String)
  | undefined
  | fuel
  deriving DecidableEq, Repr

/-- What a call gives back. -/
abbrev Result := Except Failure

@[simp] theorem ok_bind {α β : Type} (a : α) (f : α → Result β) :
    ((.ok a : Result α) >>= f) = f a := rfl

@[simp] theorem pure_eq_ok {α : Type} (a : α) : (pure a : Result α) = .ok a := rfl

theorem bind_eq_ok {α β : Type} {x : Result α} {f : α → Result β} {b : β} :
    (x >>= f) = .ok b ↔ ∃ a, x = .ok a ∧ f a = .ok b := by
  cases x with
  | error e =>
    constructor
    · intro h
      cases h
    · intro ⟨_, ha, _⟩
      cases ha
  | ok a =>
    constructor
    · intro h
      exact ⟨a, rfl, h⟩
    · intro ⟨_, ha, h⟩
      cases ha
      exact h

/-- `YT_VERIFY`. -/
def ytVerify (condition : Prop) [Decidable condition] : Result Unit :=
  if condition then .ok () else .error .verify

@[simp] theorem ytVerify_true {p : Prop} [Decidable p] (h : p) : ytVerify p = .ok () := by
  simp [ytVerify, h]

theorem ytVerify_eq_ok {p : Prop} [Decidable p] {u : Unit} : ytVerify p = .ok u ↔ p := by
  unfold ytVerify
  split_ifs with h <;> simp [h]

/-- `THROW_ERROR_EXCEPTION_IF`. -/
def throwErrorExceptionIf (condition : Prop) [Decidable condition] (message : String) :
    Result Unit :=
  if condition then .error (.exception message) else .ok ()

theorem throwErrorExceptionIf_eq_ok {p : Prop} [Decidable p] {message : String} {u : Unit} :
    throwErrorExceptionIf p message = .ok u ↔ ¬ p := by
  unfold throwErrorExceptionIf
  split_ifs with h <;> simp [h]

/-- An element of a container, undefined to read beyond its end. -/
def vectorAt {α : Type} (vector : List α) (index : ℕ) : Result α :=
  match vector[index]? with
  | some a => .ok a
  | none => .error .undefined

theorem vectorAt_eq {α : Type} {vector : List α} {index : ℕ} {a : α} (h : vector[index]? = some a) :
    vectorAt vector index = .ok a := by
  rw [vectorAt, h]

/-- `GetOrCrash` of a map. -/
def getOrCrash {β γ : Type} [DecidableEq β] (map : List (β × γ)) (key : β) : Result γ :=
  match map.find? fun entry => decide (entry.1 = key) with
  | some entry => .ok entry.2
  | none => .error .verify

theorem getOrCrash_spec {β γ : Type} [DecidableEq β] {map : List (β × γ)} {key : β}
    (h : key ∈ map.map Prod.fst) :
    ∃ value, getOrCrash map key = .ok value ∧ (key, value) ∈ map := by
  obtain ⟨entry, he, rfl⟩ := List.mem_map.mp h
  cases hf : map.find? fun e => decide (e.1 = entry.1) with
  | none => exact absurd (decide_eq_true rfl) (List.find?_eq_none.mp hf entry he)
  | some found =>
    have hk : found.1 = entry.1 := by simpa using List.find?_some hf
    refine ⟨found.2, by simp only [getOrCrash, hf], ?_⟩
    rw [← hk]
    exact List.mem_of_find?_eq_some hf

/-! ### Loops -/

/-- A loop that is left as soon as its state says so. -/
def loopUntil {σ α : Type} (stop : σ → Bool) (body : σ → α → Result σ) : List α → σ → Result σ
  | [], state => .ok state
  | a :: rest, state => do
    let state' ← body state a
    if stop state' then pure state' else loopUntil stop body rest state'

variable {β γ : Type} {f : β → Result γ}

theorem mapM_eq_map {g : β → γ} : ∀ {l : List β}, (∀ b ∈ l, f b = .ok (g b)) →
    l.mapM f = .ok (l.map g)
  | [], _ => rfl
  | b :: l, h => by
    rw [List.mapM_cons, h b (by simp), mapM_eq_map (l := l) fun b hb => h b (by simp [hb])]
    rfl

theorem mapM_error {e : Failure} : ∀ {l : List β},
    (∀ b ∈ l, f b = .error e ∨ ∃ c, f b = .ok c) → (∃ b ∈ l, f b = .error e) → l.mapM f = .error e
  | [], _, hex => by simp at hex
  | b :: l, ha, ⟨b', hb', he⟩ => by
    rw [List.mapM_cons]
    rcases ha b (by simp) with hb | ⟨c, hb⟩
    · rw [hb]
      rfl
    · have hm : b' ∈ l := by
        rcases List.mem_cons.mp hb' with rfl | hm
        · rw [hb] at he
          cases he
        · exact hm
      rw [hb, ok_bind, mapM_error (fun b hb => ha b (by simp [hb])) ⟨b', hm, he⟩]
      rfl

theorem mapM_ok {P : β → γ → Prop} : ∀ {l : List β},
    (∀ b ∈ l, ∃ c, f b = .ok c ∧ P b c) → ∃ cs, l.mapM f = .ok cs ∧ List.Forall₂ P l cs
  | [], _ => ⟨[], rfl, .nil⟩
  | b :: l, h => by
    obtain ⟨c, hc, hP⟩ := h b (by simp)
    obtain ⟨cs, hcs, ha⟩ := mapM_ok (l := l) fun b hb => h b (by simp [hb])
    exact ⟨c :: cs, by simp [List.mapM_cons, hc, hcs], .cons hP ha⟩

theorem foldlM_ok {f : γ → β → Result γ} (P : List β → γ → Prop)
    (step : ∀ b l c, P (b :: l) c → ∃ c', f c b = .ok c' ∧ P l c') :
    ∀ (l : List β) (c : γ), P l c → ∃ c', l.foldlM f c = .ok c' ∧ P [] c'
  | [], c, h => ⟨c, rfl, h⟩
  | b :: l, c, h => by
    obtain ⟨c₁, h₁, hP⟩ := step b l c h
    rw [List.foldlM_cons, h₁, ok_bind]
    exact foldlM_ok P step l c₁ hP

end Ytsaurus
