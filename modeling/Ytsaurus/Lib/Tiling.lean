/-
# Labelled tilings

A list of adjacent nonempty segments divides `[lo, hi)`; every segment has a label. A range is
repainted by cutting the tiling at its two ends, changing the labels between them and fusing
neighbours of the same kind.

Every fact about all segments of a repainted tiling follows from what one cut, one change of a label
and one fusion do (`forall_repaint`). Which labels are seen at a point is not affected by cuts and
fusions (`holds_repaint`), and a segment that nothing of its kind follows keeps its end
(`ends_repaint`).
-/
import Mathlib.Order.Lattice
import Mathlib.Order.Defs.LinearOrder
import Mathlib.Data.List.Basic
import Mathlib.Tactic.Common

namespace Ytsaurus.Lib

open List

structure Segment (κ α : Type) where
  lower : κ
  upper : κ
  label : α

/-- Labels have a kind; two labels of one kind merge into a label of that kind. -/
structure FuseOps (α β : Type) where
  kind : α → β
  merge : α → α → α
  kind_merge : ∀ a b, kind a = kind b → kind (merge a b) = kind a

variable {κ α β : Type} [LinearOrder κ] [DecidableEq β] {ops : FuseOps α β}

def Tiles : κ → κ → List (Segment κ α) → Prop
  | lo, hi, [] => lo = hi
  | lo, hi, s :: l => s.lower = lo ∧ s.lower < s.upper ∧ Tiles s.upper hi l

/-- Makes `key` a boundary. -/
def cutAt (key : κ) : List (Segment κ α) → List (Segment κ α)
  | [] => []
  | s :: l =>
    if s.upper ≤ key then s :: cutAt key l
    else if s.lower = key ∨ s.upper = key then s :: l
    else { s with upper := key } :: { s with lower := key } :: l

/-- Changes the labels of the segments that meet the range. -/
def paint (range : κ × κ) (f : α → α) : List (Segment κ α) → List (Segment κ α)
  | [] => []
  | s :: l =>
    if s.upper ≤ range.1 then s :: paint range f l
    else if range.2 ≤ s.lower then s :: l
    else { s with label := f s.label } :: paint range f l

/-- Cuts at the ends of the range and changes the labels between them. -/
def paintRange (range : κ × κ) (f : α → α) (l : List (Segment κ α)) : List (Segment κ α) :=
  paint range f (cutAt range.2 (cutAt range.1 l))

variable (ops) in
/-- Fuses `s` with the segments that follow it. -/
def fuseLoop (s : Segment κ α) : List (Segment κ α) → List (Segment κ α)
  | [] => [s]
  | s' :: l =>
    if s.upper = s'.lower ∧ ops.kind s.label = ops.kind s'.label then
      fuseLoop ⟨s.lower, s'.upper, ops.merge s.label s'.label⟩ l
    else s :: fuseLoop s' l

variable (ops) in
def fuse : List (Segment κ α) → List (Segment κ α)
  | [] => []
  | s :: l => fuseLoop ops s l

variable (ops) in
def repaint (range : κ × κ) (f : α → α) (l : List (Segment κ α)) : List (Segment κ α) :=
  if range.1 < range.2 then fuse ops (paintRange range f l) else l

/-! ### Tilings -/

theorem Tiles.le : ∀ {l : List (Segment κ α)} {lo hi : κ}, Tiles lo hi l → lo ≤ hi
  | [], _, _, h => le_of_eq h
  | _ :: _, _, _, ⟨hlo, hs, h⟩ => hlo ▸ hs.le.trans h.le

theorem Tiles.mem : ∀ {l : List (Segment κ α)} {lo hi : κ}, Tiles lo hi l → ∀ s ∈ l,
    lo ≤ s.lower ∧ s.lower < s.upper ∧ s.upper ≤ hi
  | s :: l, lo, hi, ⟨hlo, hs, h⟩, t, ht => by
    rcases mem_cons.mp ht with rfl | ht
    · exact ⟨hlo.ge, hs, h.le⟩
    · obtain ⟨h1, h2, h3⟩ := h.mem t ht
      exact ⟨hlo ▸ hs.le.trans h1, h2, h3⟩

theorem Tiles.unique : ∀ {l : List (Segment κ α)} {lo hi : κ}, Tiles lo hi l → ∀ s ∈ l, ∀ t ∈ l,
    s.lower < t.upper → t.lower < s.upper → s = t
  | u :: l, lo, hi, ⟨_, _, h⟩, s, hs, t, ht, h1, h2 => by
    rcases mem_cons.mp hs with rfl | hs' <;> rcases mem_cons.mp ht with rfl | ht'
    · rfl
    · exact absurd (h.mem t ht').1 (not_le.mpr h2)
    · exact absurd (h.mem s hs').1 (not_le.mpr h1)
    · exact h.unique s hs' t ht' h1 h2

theorem tiles_cutAt (key : κ) : ∀ {l : List (Segment κ α)} {lo hi : κ}, Tiles lo hi l → lo ≤ key →
    Tiles lo hi (cutAt key l)
  | [], _, _, h, _ => h
  | s :: l, lo, hi, ⟨hlo, hs, h⟩, hk => by
    unfold cutAt
    split_ifs with h1 h2
    · exact ⟨hlo, hs, tiles_cutAt key h h1⟩
    · exact ⟨hlo, hs, h⟩
    · rw [not_or] at h2
      exact ⟨hlo, lt_of_le_of_ne (hlo.le.trans hk) h2.1, rfl, not_le.mp h1, h⟩

theorem Tiles.map {g : Segment κ α → Segment κ α}
    (hg : ∀ s, (g s).lower = s.lower ∧ (g s).upper = s.upper) :
    ∀ {l : List (Segment κ α)} {lo hi : κ}, Tiles lo hi l → Tiles lo hi (l.map g)
  | [], _, _, h => h
  | s :: l, lo, hi, ⟨hlo, hs, h⟩ => by
    obtain ⟨h1, h2⟩ := hg s
    exact ⟨h1.trans hlo, h1.trans_lt (hs.trans_eq h2.symm), h2.symm ▸ h.map hg⟩

/-- What painting does to one segment. -/
def paintSegment (range : κ × κ) (f : α → α) (s : Segment κ α) : Segment κ α :=
  if s.upper ≤ range.1 ∨ range.2 ≤ s.lower then s else { s with label := f s.label }

theorem paintSegment_bounds (range : κ × κ) (f : α → α) (s : Segment κ α) :
    (paintSegment range f s).lower = s.lower ∧ (paintSegment range f s).upper = s.upper := by
  unfold paintSegment
  split_ifs <;> exact ⟨rfl, rfl⟩

theorem paint_eq_map {range : κ × κ} {f : α → α} : ∀ {l : List (Segment κ α)} {lo hi : κ},
    Tiles lo hi l → paint range f l = l.map (paintSegment range f)
  | [], _, _, _ => rfl
  | s :: l, lo, hi, ⟨_, hs, h⟩ => by
    rw [paint, map_cons, paint_eq_map h]
    split_ifs with h1 h2
    · rw [paintSegment, if_pos (.inl h1)]
    · -- what follows lies beyond the range as well
      have hid : l.map (paintSegment range f) = l.map id :=
        map_congr_left fun t ht => if_pos (.inr (h2.trans (hs.le.trans (h.mem t ht).1)))
      rw [hid, map_id, paintSegment, if_pos (.inr h2)]
    · rw [paintSegment, if_neg (not_or.mpr ⟨h1, h2⟩)]

theorem tiles_fuseLoop : ∀ (l : List (Segment κ α)) (s : Segment κ α) {lo hi : κ},
    Tiles lo hi (s :: l) → Tiles lo hi (fuseLoop ops s l)
  | [], _, _, _, h => h
  | s' :: l, s, lo, hi, ⟨hlo, hs, hlo', hs', h⟩ => by
    unfold fuseLoop
    split_ifs
    · exact tiles_fuseLoop l _ ⟨hlo, hs.trans_le (hlo'.ge.trans hs'.le), h⟩
    · exact ⟨hlo, hs, tiles_fuseLoop l s' ⟨hlo', hs', h⟩⟩

variable {l : List (Segment κ α)} {lo hi : κ}

theorem tiles_fuse (h : Tiles lo hi l) : Tiles lo hi (fuse ops l) := by
  cases l with
  | nil => exact h
  | cons s l => exact tiles_fuseLoop l s h

variable {range : κ × κ} {f : α → α}

theorem tiles_paint (h : Tiles lo hi l) : Tiles lo hi (paint range f l) :=
  paint_eq_map (f := f) h ▸ h.map (paintSegment_bounds range f)

/-! ### Facts about all segments -/

def Aligned (key : κ) (l : List (Segment κ α)) : Prop := ∀ s ∈ l, s.upper ≤ key ∨ key ≤ s.lower

theorem forall_cutAt {P : Segment κ α → Prop} (key : κ) (hc : ∀ s, s.lower < key → key < s.upper →
      P s → P { s with upper := key } ∧ P { s with lower := key }) :
    ∀ {l : List (Segment κ α)} {lo hi : κ}, Tiles lo hi l → lo ≤ key → (∀ s ∈ l, P s) →
      ∀ s ∈ cutAt key l, P s
  | [], _, _, _, _, _ => by simp [cutAt]
  | s :: l, lo, hi, ⟨hlo, _, h⟩, hk, hP => by
    obtain ⟨hs, hl⟩ := forall_mem_cons.mp hP
    unfold cutAt
    split_ifs with h1 h2
    · exact forall_mem_cons.mpr ⟨hs, forall_cutAt key hc h h1 hl⟩
    · exact hP
    · rw [not_or] at h2
      have := hc s (lt_of_le_of_ne (hlo.le.trans hk) h2.1) (not_le.mp h1) hs
      exact forall_mem_cons.mpr ⟨this.1, forall_mem_cons.mpr ⟨this.2, hl⟩⟩

theorem aligned_cutAt (key : κ) : ∀ {l : List (Segment κ α)} {lo hi : κ}, Tiles lo hi l → lo ≤ key →
    Aligned key (cutAt key l)
  | [], _, _, _, _ => by simp [cutAt, Aligned]
  | s :: l, lo, hi, ⟨hlo, _, h⟩, hk => by
    unfold cutAt
    split_ifs with h1 h2
    · exact forall_mem_cons.mpr ⟨.inl h1, aligned_cutAt key h h1⟩
    · have hle : key ≤ s.lower := by
        rcases h2 with h2 | h2
        · exact h2.ge
        · exact absurd h2.le h1
      exact forall_mem_cons.mpr ⟨.inr hle, fun t ht => .inr ((not_le.mp h1).le.trans (h.mem t ht).1)⟩
    · refine forall_mem_cons.mpr ⟨.inl le_rfl, forall_mem_cons.mpr ⟨.inr le_rfl, fun t ht => ?_⟩⟩
      exact .inr ((not_le.mp h1).le.trans (h.mem t ht).1)

theorem aligned_cutAt_of_aligned {key key' : κ} (h : Tiles lo hi l)
    (hlo : lo ≤ key) (ha : Aligned key' l) : Aligned key' (cutAt key l) :=
  forall_cutAt key (fun _ h1 h2 hs =>
    ⟨hs.imp h2.le.trans id, hs.imp id fun h' => h'.trans h1.le⟩) h hlo ha

variable {P : Segment κ α → Prop}

section Fuse

variable (hf : ∀ s s', s.upper = s'.lower → ops.kind s.label = ops.kind s'.label → P s → P s' →
  P ⟨s.lower, s'.upper, ops.merge s.label s'.label⟩)

include hf

theorem forall_fuseLoop : ∀ (l : List (Segment κ α)) (s : Segment κ α), P s → (∀ t ∈ l, P t) →
    ∀ t ∈ fuseLoop ops s l, P t
  | [], s, hs, _ => by simpa [fuseLoop] using hs
  | s' :: l, s, hs, hP => by
    obtain ⟨hs', hl⟩ := forall_mem_cons.mp hP
    unfold fuseLoop
    split_ifs with h
    · exact forall_fuseLoop l _ (hf s s' h.1 h.2 hs hs') hl
    · exact forall_mem_cons.mpr ⟨hs, forall_fuseLoop l s' hs' hl⟩

theorem forall_fuse (hP : ∀ s ∈ l, P s) : ∀ s ∈ fuse ops l, P s := by
  cases l with
  | nil => exact hP
  | cons s l =>
    obtain ⟨hs, hl⟩ := forall_mem_cons.mp hP
    exact forall_fuseLoop hf l s hs hl

end Fuse

/-! ### Neighbours -/

variable (ops) in
def Fused : List (Segment κ α) → Prop
  | [] => True
  | [_] => True
  | s :: s' :: l => ¬(s.upper = s'.lower ∧ ops.kind s.label = ops.kind s'.label) ∧ Fused (s' :: l)

variable (ops) in
theorem fuseLoop_head : ∀ (l : List (Segment κ α)) (s : Segment κ α), ∃ t l', fuseLoop ops s l =
    t :: l' ∧ t.lower = s.lower ∧ ops.kind t.label = ops.kind s.label
  | [], s => ⟨s, [], rfl, rfl, rfl⟩
  | s' :: l, s => by
    unfold fuseLoop
    split_ifs with h
    · obtain ⟨t, l', heq, hl, hk⟩ := fuseLoop_head l ⟨s.lower, s'.upper, ops.merge s.label s'.label⟩
      exact ⟨t, l', heq, hl, hk.trans (ops.kind_merge _ _ h.2)⟩
    · exact ⟨s, _, rfl, rfl, rfl⟩

theorem fused_fuseLoop : ∀ (l : List (Segment κ α)) (s : Segment κ α), Fused ops (fuseLoop ops s l)
  | [], s => trivial
  | s' :: l, s => by
    unfold fuseLoop
    split_ifs with h
    · exact fused_fuseLoop l _
    · obtain ⟨t, l', heq, hl, hk⟩ := fuseLoop_head ops l s'
      have := fused_fuseLoop l s'
      rw [heq] at this ⊢
      exact ⟨by rwa [hl, hk], this⟩

theorem fused_fuse (l : List (Segment κ α)) : Fused ops (fuse ops l) := by
  cases l with
  | nil => trivial
  | cons s l => exact fused_fuseLoop l s

theorem fused_repaint (h : Fused ops l) : Fused ops (repaint ops range f l) := by
  unfold repaint
  split_ifs
  · exact fused_fuse _
  · exact h

omit [DecidableEq β] in
theorem Fused.kind_ne : ∀ {l : List (Segment κ α)} {lo hi : κ}, Fused ops l → Tiles lo hi l →
    ∀ s ∈ l, ∀ t ∈ l, s.upper = t.lower → ops.kind s.label ≠ ops.kind t.label
  | u :: l, lo, hi, hf, ⟨_, hu, h⟩, s, hs, t, ht, hst => by
    have hf' : Fused ops l := by
      cases l with
      | nil => trivial
      | cons _ _ => exact hf.2
    rcases mem_cons.mp hs with rfl | hs' <;> rcases mem_cons.mp ht with rfl | ht'
    · exact absurd hst hu.ne'
    · cases l with
      | nil => simp at ht'
      | cons v l =>
        rcases mem_cons.mp ht' with rfl | ht''
        · exact fun hk => hf.1 ⟨hst, hk⟩
        · have : s.upper < t.lower := h.1 ▸ h.2.1.trans_le (h.2.2.mem t ht'').1
          exact absurd hst this.ne
    · have := h.mem s hs'
      exact absurd (this.1.trans_lt this.2.1) (not_lt.mpr (hst.le.trans hu.le))
    · exact hf'.kind_ne h s hs' t ht' hst

/-! ### Labels at a point -/

/-- A segment that contains `x` has a label with `C`. -/
def Holds (C : α → Prop) (l : List (Segment κ α)) (x : κ) : Prop :=
  ∃ s ∈ l, s.lower ≤ x ∧ x < s.upper ∧ C s.label

variable {C : α → Prop} {s : Segment κ α} {x : κ}

theorem holds_cons :
    Holds C (s :: l) x ↔ (s.lower ≤ x ∧ x < s.upper ∧ C s.label) ∨ Holds C l x := by
  unfold Holds
  rw [exists_mem_cons_iff]

theorem holds_cutAt {C : α → Prop} (key x : κ) : ∀ {l : List (Segment κ α)} {lo hi : κ},
    Tiles lo hi l → lo ≤ key → (Holds C (cutAt key l) x ↔ Holds C l x)
  | [], _, _, _, _ => Iff.rfl
  | s :: l, lo, hi, ⟨hlo, _, h⟩, hk => by
    unfold cutAt
    split_ifs with h1 h2
    · rw [holds_cons, holds_cons, holds_cutAt key x h h1]
    · rfl
    · rw [not_or] at h2
      rw [holds_cons, holds_cons, holds_cons, ← or_assoc]
      refine or_congr_left ⟨?_, fun ⟨hx1, hx2, hC⟩ => ?_⟩
      · rintro (⟨hx1, hx2, hC⟩ | ⟨hx1, hx2, hC⟩)
        · exact ⟨hx1, hx2.trans (not_le.mp h1), hC⟩
        · exact ⟨(hlo.le.trans hk).trans hx1, hx2, hC⟩
      · rcases lt_or_ge x key with hx | hx
        · exact .inl ⟨hx1, hx, hC⟩
        · exact .inr ⟨hx, hx2, hC⟩

variable {D : β → Prop}

theorem holds_fuseLoop {C : α → Prop} (hC : ∀ a, C a ↔ D (ops.kind a)) (x : κ) :
    ∀ (l : List (Segment κ α)) (s : Segment κ α) {lo hi : κ}, Tiles lo hi (s :: l) →
      (Holds C (fuseLoop ops s l) x ↔ Holds C (s :: l) x)
  | [], _, _, _, _ => Iff.rfl
  | s' :: l, s, lo, hi, ⟨hlo, hs, hlo', hs', h⟩ => by
    unfold fuseLoop
    split_ifs with hk
    · rw [holds_fuseLoop hC x l ⟨s.lower, s'.upper, _⟩ ⟨hlo, hs.trans_le (hlo'.ge.trans hs'.le), h⟩]
      rw [holds_cons, holds_cons, holds_cons, ← or_assoc]
      refine or_congr_left ?_
      rw [hC, hC, hC, ops.kind_merge _ _ hk.2, ← hk.2, hk.1]
      constructor
      · rintro ⟨hx1, hx2, hD⟩
        rcases lt_or_ge x s'.lower with hx | hx
        · exact .inl ⟨hx1, hx, hD⟩
        · exact .inr ⟨hx, hx2, hD⟩
      · rintro (⟨hx1, hx2, hD⟩ | ⟨hx1, hx2, hD⟩)
        · exact ⟨hx1, hx2.trans hs', hD⟩
        · exact ⟨(hk.1 ▸ hs.le).trans hx1, hx2, hD⟩
    · rw [holds_cons, holds_fuseLoop hC x l s' ⟨hlo', hs', h⟩, ← holds_cons]

theorem Tiles.exists_mem : ∀ {l : List (Segment κ α)} {lo hi : κ}, Tiles lo hi l → lo ≤ x → x < hi →
    ∃ s ∈ l, s.lower ≤ x ∧ x < s.upper
  | [], lo, hi, h, h1, h2 =>
    absurd (h1.trans_lt h2) (by rw [show lo = hi from h]; exact lt_irrefl _)
  | s :: l, lo, hi, ⟨hlo, _, h⟩, h1, h2 => by
    rcases lt_or_ge x s.upper with hx | hx
    · exact ⟨s, mem_cons_self, hlo.le.trans h1, hx⟩
    · obtain ⟨t, ht, hxt⟩ := h.exists_mem hx h2
      exact ⟨t, mem_cons_of_mem _ ht, hxt⟩

theorem Tiles.holds_iff (h : Tiles lo hi l) (hs : s ∈ l) (h1 : s.lower ≤ x)
    (h2 : x < s.upper) : Holds C l x ↔ C s.label := by
  refine ⟨?_, fun hC => ⟨s, hs, h1, h2, hC⟩⟩
  rintro ⟨t, ht, ht1, ht2, hC⟩
  exact h.unique t ht s hs (ht1.trans_lt h2) (h1.trans_lt ht2) ▸ hC

theorem holds_fuse (hC : ∀ a, C a ↔ D (ops.kind a)) (x : κ)
    (h : Tiles lo hi l) : Holds C (fuse ops l) x ↔ Holds C l x := by
  cases l with
  | nil => rfl
  | cons s l => exact holds_fuseLoop hC x l s h

/-! ### Ends of segments -/

/-- A segment with `Q` ends at `u`. -/
def Ends (Q : α → Prop) (l : List (Segment κ α)) (u : κ) : Prop := ∃ s ∈ l, s.upper = u ∧ Q s.label

variable {Q : α → Prop} {u : κ}

omit [LinearOrder κ] in
theorem ends_cons : Ends Q (s :: l) u ↔ (s.upper = u ∧ Q s.label) ∨ Ends Q l u := by
  unfold Ends
  rw [exists_mem_cons_iff]

theorem ends_cutAt {Q : α → Prop} (key u : κ) : ∀ {l : List (Segment κ α)}, Ends Q l u →
    Ends Q (cutAt key l) u
  | [], h => h
  | s :: l, h => by
    unfold cutAt
    split_ifs
    · rw [ends_cons] at h ⊢
      exact h.imp id (ends_cutAt key u)
    · exact h
    · rw [ends_cons] at h
      rw [ends_cons, ends_cons]
      exact .inr h

theorem exists_upper_cutAt {key : κ} : ∀ {l : List (Segment κ α)} {lo hi : κ}, Tiles lo hi l →
    lo < key → key ≤ hi → ∃ s ∈ cutAt key l, s.upper = key
  | [], lo, hi, h, h1, h2 =>
    absurd (h1.trans_le h2) (by rw [show lo = hi from h]; exact lt_irrefl _)
  | s :: l, lo, hi, ⟨hlo, _, h⟩, h1, h2 => by
    unfold cutAt
    split_ifs with h3 h4
    · rcases h3.lt_or_eq with h3 | h3
      · obtain ⟨t, ht, htu⟩ := exists_upper_cutAt h h3 h2
        exact ⟨t, mem_cons_of_mem _ ht, htu⟩
      · exact ⟨s, mem_cons_self, h3⟩
    · rcases h4 with h4 | h4
      · exact absurd (hlo.symm.trans h4) h1.ne
      · exact absurd h4.le h3
    · exact ⟨_, mem_cons_self, rfl⟩

theorem ends_fuseLoop {Q : α → Prop} {u : κ}
    (hm : ∀ a b, ops.kind a = ops.kind b → Q b → Q (ops.merge a b)) :
    ∀ (l : List (Segment κ α)) (s : Segment κ α) {lo hi : κ}, Tiles lo hi (s :: l) →
      (∀ t ∈ l, t.lower = u → ∀ a, Q a → ops.kind a ≠ ops.kind t.label) → Ends Q (s :: l) u →
      Ends Q (fuseLoop ops s l) u
  | [], _, _, _, _, _, h => h
  | s' :: l, s, lo, hi, ⟨hlo, hs, hlo', hs', ht⟩, hstart, h => by
    obtain ⟨hstart1, hstart2⟩ := forall_mem_cons.mp hstart
    unfold fuseLoop
    split_ifs with hk
    · refine ends_fuseLoop hm l _ ⟨hlo, hs.trans_le (hlo'.ge.trans hs'.le), ht⟩ hstart2 ?_
      rw [ends_cons, ends_cons] at h
      rw [ends_cons]
      -- the first segment does not end at u, as the next one is of its kind
      rcases h with ⟨hu, hQ⟩ | ⟨hu, hQ⟩ | h
      · exact absurd hk.2 (hstart1 (hk.1.symm.trans hu) _ hQ)
      · exact .inl ⟨hu, hm _ _ hk.2 hQ⟩
      · exact .inr h
    · rw [ends_cons] at h ⊢
      exact h.imp id (ends_fuseLoop hm l s' ⟨hlo', hs', ht⟩ hstart2)

theorem ends_fuse (hm : ∀ a b, ops.kind a = ops.kind b → Q b → Q (ops.merge a b))
    (h : Tiles lo hi l)
    (hs : ∀ t ∈ l, t.lower = u → ∀ a, Q a → ops.kind a ≠ ops.kind t.label) (he : Ends Q l u) :
    Ends Q (fuse ops l) u := by
  cases l with
  | nil => exact he
  | cons s l => exact ends_fuseLoop hm l s h (forall_mem_cons.mp hs).2 he

/-! ### Repainting -/

section Repaint

variable (h : Tiles lo hi l) (hlo : lo ≤ range.1)

include h hlo

section

variable (hr : range.1 < range.2)

include hr

theorem tiles_cuts : Tiles lo hi (cutAt range.2 (cutAt range.1 l)) :=
  tiles_cutAt _ (tiles_cutAt _ h hlo) (hlo.trans hr.le)

theorem paintRange_eq : paintRange range f l = (cutAt range.2 (cutAt range.1 l)).map
    (paintSegment range f) :=
  paint_eq_map (tiles_cuts h hlo hr)

theorem tiles_paintRange : Tiles lo hi (paintRange range f l) :=
  tiles_paint (tiles_cuts h hlo hr)

theorem aligned_cuts : Aligned range.1 (cutAt range.2 (cutAt range.1 l)) ∧
      Aligned range.2 (cutAt range.2 (cutAt range.1 l)) :=
  have h1 := tiles_cutAt range.1 h hlo
  ⟨aligned_cutAt_of_aligned h1 (hlo.trans hr.le) (aligned_cutAt range.1 h hlo),
    aligned_cutAt range.2 h1 (hlo.trans hr.le)⟩

theorem forall_paintRange (hcut : ∀ key s, s.lower < key → key < s.upper → P s →
      P { s with upper := key } ∧ P { s with lower := key })
    (hp : ∀ s, range.1 ≤ s.lower → s.upper ≤ range.2 → P s → P { s with label := f s.label })
    (hP : ∀ s ∈ l, P s) : ∀ s ∈ paintRange range f l, P s := by
  obtain ⟨ha1, ha2⟩ := aligned_cuts h hlo hr
  have hcuts : ∀ s ∈ cutAt range.2 (cutAt range.1 l), P s :=
    forall_cutAt range.2 (hcut _) (tiles_cutAt range.1 h hlo) (hlo.trans hr.le)
      (forall_cutAt range.1 (hcut _) h hlo hP)
  rw [paintRange_eq h hlo hr]
  refine forall_mem_map.mpr fun s hs => ?_
  unfold paintSegment
  split_ifs with ho
  · exact hcuts s hs
  · rw [not_or] at ho
    exact hp s ((ha1 s hs).resolve_left ho.1) ((ha2 s hs).resolve_right ho.2) (hcuts s hs)

theorem holds_paintRange (hf : ∀ a, C (f a)) (hx : lo ≤ x) (hx' : x < hi) :
    Holds C (paintRange range f l) x ↔ (range.1 ≤ x ∧ x < range.2) ∨ Holds C l x := by
  have hc := tiles_cuts h hlo hr
  obtain ⟨ha1, ha2⟩ := aligned_cuts h hlo hr
  obtain ⟨s, hs, h1, h2⟩ := hc.exists_mem hx hx'
  obtain ⟨hl, hu⟩ := paintSegment_bounds range f s
  rw [← holds_cutAt range.1 x h hlo, ← holds_cutAt range.2 x (tiles_cutAt range.1 h hlo)
    (hlo.trans hr.le),
    hc.holds_iff hs h1 h2, paintRange_eq h hlo hr, (hc.map (paintSegment_bounds range f)).holds_iff
      (mem_map_of_mem hs) (hl.le.trans h1) (h2.trans_eq hu.symm)]
  unfold paintSegment
  split_ifs with ho
  · -- the segment lies off the range
    refine (or_iff_right fun hin => ?_).symm
    rcases ho with ho | ho
    · exact absurd (h2.trans_le ho) (not_lt.mpr hin.1)
    · exact absurd (hin.2.trans_le ho) (not_lt.mpr h1)
  · rw [not_or] at ho
    exact iff_of_true (hf _)
      (.inl ⟨((ha1 s hs).resolve_left ho.1).trans h1, h2.trans_le ((ha2 s hs).resolve_right ho.2)⟩)

theorem ends_paintRange (hf : range.1 < u → u ≤ range.2 → ∀ a, Q a → Q (f a)) (he : Ends Q l u) :
    Ends Q (paintRange range f l) u := by
  obtain ⟨s, hs, rfl, hQ⟩ := ends_cutAt range.2 u (ends_cutAt range.1 u he)
  rw [paintRange_eq h hlo hr]
  refine ⟨_, mem_map_of_mem hs, (paintSegment_bounds range f s).2, ?_⟩
  unfold paintSegment
  split_ifs with ho
  · exact hQ
  · rw [not_or] at ho
    exact hf (not_le.mp ho.1) (((aligned_cuts h hlo hr).2 s hs).resolve_right ho.2) _ hQ

end

theorem tiles_repaint : Tiles lo hi (repaint ops range f l) := by
  unfold repaint
  split_ifs with hr
  · exact tiles_fuse (tiles_paintRange h hlo hr)
  · exact h

theorem forall_repaint
    (hc : ∀ key s, s.lower < key → key < s.upper → P s → P { s with upper := key } ∧
      P { s with lower := key })
    (hp : ∀ s, range.1 ≤ s.lower → s.upper ≤ range.2 → P s → P { s with label := f s.label })
    (hf : ∀ s s', s.upper = s'.lower → ops.kind s.label = ops.kind s'.label → P s → P s' →
      P ⟨s.lower, s'.upper, ops.merge s.label s'.label⟩)
    (hP : ∀ s ∈ l, P s) : ∀ s ∈ repaint ops range f l, P s := by
  unfold repaint
  split_ifs with hr
  · exact forall_fuse hf (forall_paintRange h hlo hr hc hp hP)
  · exact hP

theorem holds_repaint (hC : ∀ a, C a ↔ D (ops.kind a)) (hf : ∀ a, C (f a)) (hx : lo ≤ x)
    (hx' : x < hi) :
    Holds C (repaint ops range f l) x ↔ (range.1 ≤ x ∧ x < range.2) ∨ Holds C l x := by
  unfold repaint
  split_ifs with hr
  · rw [holds_fuse hC x (tiles_paintRange h hlo hr), holds_paintRange h hlo hr hf hx hx']
  · have ho : ¬(range.1 ≤ x ∧ x < range.2) := fun h' => hr (h'.1.trans_lt h'.2)
    simp only [ho, false_or]

variable (hm : ∀ a b, ops.kind a = ops.kind b → Q b → Q (ops.merge a b))

include hm

theorem ends_repaint (hs : ∀ t ∈ paintRange range f l, t.lower = u → ∀ a, Q a →
      ops.kind a ≠ ops.kind t.label) (hf : range.1 < u → u ≤ range.2 → ∀ a, Q a → Q (f a))
    (he : Ends Q l u) : Ends Q (repaint ops range f l) u := by
  unfold repaint
  split_ifs with hr
  · exact ends_fuse hm (tiles_paintRange h hlo hr) hs (ends_paintRange h hlo hr hf he)
  · exact he

theorem ends_repaint_self (hr : range.1 < range.2) (hhi : range.2 ≤ hi)
    (hstart : ∀ t ∈ paintRange range f l, t.lower = range.2 → ∀ a, Q a → ops.kind a ≠ ops.kind t.label)
    (hf : ∀ a, Q (f a)) : Ends Q (repaint ops range f l) range.2 := by
  obtain ⟨s, hs, hu⟩ := exists_upper_cutAt (tiles_cutAt range.1 h hlo) (hlo.trans_lt hr) hhi
  have hlt := ((tiles_cuts h hlo hr).mem s hs).2.1
  have he : Ends Q (paintRange range f l) range.2 := by
    rw [paintRange_eq h hlo hr]
    refine ⟨_, mem_map_of_mem hs, (paintSegment_bounds range f s).2.trans hu, ?_⟩
    rw [paintSegment, if_neg (by simp [hu, hr, hu ▸ hlt])]
    exact hf _
  unfold repaint
  rw [if_pos hr]
  exact ends_fuse hm (tiles_paintRange h hlo hr) hstart he

end Repaint

end Ytsaurus.Lib
