/-
# Runs of the sliding window

`TSlidingWindow` under any sequence of packets. What the callback got are the packets that were
accepted, in the order of their numbers and without a gap, and the window holds the accepted packets
after the gap (`WindowInv`). The check for room comes before the drain, so a window that is full of
later packets refuses even the one it waits for.
-/
import Ytsaurus.Rpc.Stream

namespace Ytsaurus.Rpc

open List

variable {π : Type} {window : SlidingWindow π} {number : ℤ}

theorem find_some {packet : π} (h : window.find number = some packet) :
    (number, packet) ∈ window.window := by
  obtain ⟨⟨number', packet'⟩, hf, rfl⟩ := Option.map_eq_some_iff.mp h
  have hn : number' = number := by simpa using find?_some hf
  subst hn
  exact mem_of_find?_eq_some hf

theorem find_none (h : window.find number = none) : ∀ entry ∈ window.window, entry.1 ≠ number := by
  simpa [SlidingWindow.find] using h

/-- A window, the packets that it has accepted and those that it has passed to the callback. -/
structure WindowRun (π : Type) where
  window : SlidingWindow π := ⟨0, []⟩
  accepted : List (ℤ × π) := []
  delivered : List π := []

/-- A call of `AddPacket`; the window is left as it is when the call throws. -/
def WindowRun.offer (maxSize : ℕ) (run : WindowRun π) (call : ℤ × π) : WindowRun π :=
  match run.window.addPacket maxSize call.1 call.2 with
  | .ok (window, ready) => ⟨window, run.accepted ++ [call], run.delivered ++ ready⟩
  | .error _ => run

/-- The accepted packets are those delivered, in order, and those in the window. -/
structure WindowInv (window : SlidingWindow π) (accepted : List (ℤ × π))
    (delivered : List π) : Prop where
  next : window.nextPacketSequenceNumber = delivered.length
  delivered_mem : ∀ (i : ℕ) packet, delivered[i]? = some packet → ((i : ℤ), packet) ∈ accepted
  window_mem : ∀ entry ∈ window.window, entry ∈ accepted ∧ window.nextPacketSequenceNumber ≤ entry.1
  accepted_mem : ∀ entry ∈ accepted, entry.1 < window.nextPacketSequenceNumber ∨
    entry ∈ window.window
  nodup : (accepted.map Prod.fst).Nodup

section Inv

variable {accepted : List (ℤ × π)} {delivered : List π}

theorem WindowInv.pop {packet : π} (h : WindowInv window accepted delivered)
    (hf : window.find window.nextPacketSequenceNumber = some packet) :
    WindowInv window.pop accepted (delivered ++ [packet]) where
  next := by simp [SlidingWindow.pop, h.next]
  delivered_mem i p hp := by
    rcases Nat.lt_trichotomy i delivered.length with hi | rfl | hi
    · rw [getElem?_append_left hi] at hp
      exact h.delivered_mem i p hp
    · obtain rfl : packet = p := by simpa using hp
      have hm := (h.window_mem _ (find_some hf)).1
      rwa [h.next] at hm
    · rw [getElem?_eq_none (by simpa using hi)] at hp
      cases hp
  window_mem entry hentry := by
    obtain ⟨hm, hne⟩ := mem_filter.mp hentry
    obtain ⟨ha, hle⟩ := h.window_mem entry hm
    exact ⟨ha, Int.add_one_le_of_lt (lt_of_le_of_ne hle (of_decide_eq_true hne).symm)⟩
  accepted_mem entry hentry := by
    rcases h.accepted_mem entry hentry with hlt | hm
    · exact .inl (lt_trans hlt (lt_add_one _))
    · by_cases heq : entry.1 = window.nextPacketSequenceNumber
      · exact .inl (heq ▸ lt_add_one _)
      · exact .inr (mem_filter.mpr ⟨hm, decide_eq_true heq⟩)
  nodup := h.nodup

/-- The loop ends where the next packet is missing. -/
theorem WindowInv.slide : ∀ (rounds : ℕ) {window : SlidingWindow π} {delivered : List π},
    WindowInv window accepted delivered → window.window.length ≤ rounds →
    WindowInv (window.slide rounds).1 accepted (delivered ++ (window.slide rounds).2) ∧
      (window.slide rounds).1.find (window.slide rounds).1.nextPacketSequenceNumber = none
  | 0, window, delivered, h, hl => by
    have hn : window.window = [] := eq_nil_of_length_eq_zero (Nat.le_zero.mp hl)
    exact ⟨by simpa [SlidingWindow.slide] using h, by simp [SlidingWindow.slide, SlidingWindow.find, hn]⟩
  | rounds + 1, window, delivered, h, hl => by
    unfold SlidingWindow.slide
    cases hf : window.find window.nextPacketSequenceNumber with
    | none => exact ⟨by simpa using h, hf⟩
    | some packet =>
      have hs : window.pop.window.length < window.window.length :=
        length_filter_lt_length_iff_exists.mpr ⟨_, find_some hf, by simp⟩
      have hr := (h.pop hf).slide rounds (by omega)
      rwa [append_assoc] at hr

theorem WindowInv.push (h : WindowInv window accepted delivered) (packet : π)
    (hle : window.nextPacketSequenceNumber ≤ number) (hn : window.find number = none) : WindowInv
      { window with window := (number, packet) :: window.window } (accepted ++ [(number, packet)])
      delivered where
  next := h.next
  delivered_mem i p hp := mem_append_left _ (h.delivered_mem i p hp)
  window_mem entry he := by
    rcases mem_cons.mp he with rfl | he
    · exact ⟨by simp, hle⟩
    · exact ⟨mem_append_left _ (h.window_mem entry he).1, (h.window_mem entry he).2⟩
  accepted_mem entry he := by
    rcases mem_append.mp he with he | he
    · exact (h.accepted_mem entry he).imp_right (mem_cons_of_mem _)
    · exact .inr (mem_singleton.mp he ▸ mem_cons_self)
  nodup := by
    rw [map_append, nodup_append]
    refine ⟨h.nodup, nodup_singleton _, ?_⟩
    intro a ha b hb hab
    obtain ⟨entry, he, rfl⟩ := mem_map.mp ha
    obtain rfl : b = number := by simpa using hb
    rcases h.accepted_mem entry he with hlt | hm
    · exact absurd hab (hlt.trans_le hle).ne
    · exact find_none hn entry hm hab

theorem WindowInv.addPacket {maxSize : ℕ} {packet : π} {result : SlidingWindow π × List π}
    (h : WindowInv window accepted delivered)
    (hok : window.addPacket maxSize number packet = .ok result) :
    WindowInv result.1 (accepted ++ [(number, packet)]) (delivered ++ result.2) ∧
      result.1.find result.1.nextPacketSequenceNumber = none := by
  unfold SlidingWindow.addPacket at hok
  split_ifs at hok with hs hq hf
  obtain rfl := Except.ok.inj hok
  have hp := h.push packet (not_lt.mp hs) (Option.not_isSome_iff_eq_none.mp hq)
  exact hp.slide (window.window.length + 1) le_rfl

end Inv

/-- The window waits for a packet that it does not have. -/
structure WindowRun.Ok (run : WindowRun π) : Prop where
  inv : WindowInv run.window run.accepted run.delivered
  missing : run.window.find run.window.nextPacketSequenceNumber = none

theorem WindowRun.Ok.offer {run : WindowRun π} (h : run.Ok) (maxSize : ℕ) (call : ℤ × π) :
    (run.offer maxSize call).Ok := by
  unfold WindowRun.offer
  cases ha : run.window.addPacket maxSize call.1 call.2 with
  | error _ => exact h
  | ok result => exact ⟨(h.inv.addPacket ha).1, (h.inv.addPacket ha).2⟩

/-- The packet that the window waits for. -/
theorem addPacket_next (hm : window.find window.nextPacketSequenceNumber = none) (maxSize : ℕ)
    (packet : π) : (∃ after rest, window.addPacket maxSize window.nextPacketSequenceNumber packet =
      .ok (after, packet :: rest)) ↔ window.window.length < maxSize := by
  unfold SlidingWindow.addPacket
  rw [if_neg (lt_irrefl _), if_neg (by rw [hm]; simp)]
  split_ifs with hf
  · refine iff_of_false ?_ (not_lt.mpr hf)
    rintro ⟨_, _, ht⟩
    cases ht
  · refine iff_of_true ?_ (not_le.mp hf)
    rw [SlidingWindow.slide, SlidingWindow.find, find?_cons_of_pos (by simp)]
    exact ⟨_, _, rfl⟩

theorem WindowRun.ok_foldl (maxSize : ℕ) : ∀ (calls : List (ℤ × π)) {run : WindowRun π}, run.Ok →
    (calls.foldl (WindowRun.offer maxSize) run).Ok
  | [], _, h => h
  | call :: calls, _, h => ok_foldl maxSize calls (h.offer maxSize call)

theorem WindowRun.ok_start : ({} : WindowRun π).Ok :=
  ⟨⟨rfl, by simp, by simp, by simp, by simp⟩, rfl⟩

/-- After any calls the callback has got the accepted packets numbered `0, 1, …` up to the next
number, a call that throws changes nothing, and the next packet is accepted, and delivered at once,
iff the window has room. -/
theorem slidingWindow_resumes_iff (maxSize : ℕ) (calls : List (ℤ × π)) :
    let run : WindowRun π := calls.foldl (WindowRun.offer maxSize) {}
    let next := run.window.nextPacketSequenceNumber
    (run.accepted.map Prod.fst).Nodup ∧ next = run.delivered.length ∧
      (∀ (i : ℕ) packet, run.delivered[i]? = some packet ↔ (i : ℤ) < next ∧
        ((i : ℤ), packet) ∈ run.accepted) ∧
      (∀ call failure, run.window.addPacket maxSize call.1 call.2 = .error failure →
        run.offer maxSize call = run) ∧
      ∀ packet, (∃ window rest, run.window.addPacket maxSize next packet =
          .ok (window, packet :: rest)) ↔ run.window.window.length < maxSize := by
  intro run next
  have hok : run.Ok := WindowRun.ok_foldl maxSize calls WindowRun.ok_start
  have hnext : next = run.delivered.length := hok.inv.next
  refine ⟨hok.inv.nodup, hnext, fun i packet => ⟨fun hp => ?_, fun hp => ?_⟩, ?_,
    addPacket_next hok.missing maxSize⟩
  · have hi : i < run.delivered.length := (List.getElem?_eq_some_iff.mp hp).1
    exact ⟨by omega, hok.inv.delivered_mem i packet hp⟩
  · have hi : i < run.delivered.length := by omega
    have hget := getElem?_eq_getElem hi
    have heq := inj_on_of_nodup_map hok.inv.nodup (hok.inv.delivered_mem i _ hget) hp.2 rfl
    rw [hget, (Prod.mk.inj heq).2]
  · intro call failure hfails
    simp only [WindowRun.offer, hfails]

/-- A window of one packet that holds packet 1 refuses packet 0. -/
theorem slidingWindow_wedged :
    let run := [((1 : ℤ), ())].foldl (WindowRun.offer 1) {}
    run.window.nextPacketSequenceNumber = 0 ∧
      run.window.addPacket 1 0 () = .error (.exception "Packet window overflow") :=
  ⟨rfl, rfl⟩

/-- After any calls, the window has passed a number iff packets of it and of all numbers before were
accepted, in any order. -/
theorem slidingWindow_passes_iff (maxSize : ℕ) (calls : List (ℤ × π)) (i : ℕ) :
    let run : WindowRun π := calls.foldl (WindowRun.offer maxSize) {}
    i < run.window.nextPacketSequenceNumber ↔ ∀ j ≤ i, (j : ℤ) ∈ run.accepted.map Prod.fst := by
  intro run
  have h : run.Ok := WindowRun.ok_foldl maxSize calls WindowRun.ok_start
  rw [h.inv.next, Nat.cast_lt]
  constructor
  · intro hi j hj
    exact mem_map_of_mem (h.inv.delivered_mem j _ (getElem?_eq_getElem (hj.trans_lt hi)))
  · intro hall
    -- otherwise the window waits for a packet that it has accepted
    by_contra hge
    obtain ⟨entry, he, hn⟩ := mem_map.mp (hall _ (not_lt.mp hge))
    rw [← h.inv.next] at hn
    exact (h.inv.accepted_mem entry he).elim hn.not_lt fun hw => find_none h.missing entry hw hn

end Ytsaurus.Rpc
