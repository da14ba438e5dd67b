/-
# Open recursion

A recursive function given by one level of its body, the calls it makes left open: `step call a` is
the body at `a` with `call` in the place of the function itself, unrolled as often as a measure of
the argument asks for (`solve`). What the body establishes from its calls at arguments of a smaller
measure then holds of the function (`unroll_induct`).
-/
import Mathlib.Data.Nat.Basic
import Mathlib.Tactic.Common

namespace Ytsaurus.Lib

variable {α β : Type}

/-- `depth` copies of the body, `base` below the last one. -/
def unroll (step : (α → β) → α → β) (base : β) : ℕ → α → β
  | 0, _ => base
  | depth + 1, a => step (unroll step base depth) a

/-- The body unrolled as often as the measure of the argument asks for. -/
def solve (measure : α → ℕ) (step : (α → β) → α → β) (base : β) (a : α) : β :=
  unroll step base (measure a + 1) a

variable {measure : α → ℕ} {step : (α → β) → α → β} {base : β}

/-- What the body establishes from its calls at smaller arguments holds of the unrolled function. -/
theorem unroll_induct {P : α → β → Prop}
    (h : ∀ call a, (∀ b, measure b < measure a → P b (call b)) → P a (step call a)) :
    ∀ {depth : ℕ} {a : α}, measure a < depth → P a (unroll step base depth a)
  | depth + 1, a, hd => h _ a fun b hb => unroll_induct h (by omega)

end Ytsaurus.Lib
