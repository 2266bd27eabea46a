import Wasapi.FcgiConn.Calm

/-!
# Waiting for an arena

A connection whose BEGIN_REQUEST found no arena keeps its input and waits until somebody releases a
request. The release looks for it in a queue, so whoever waits has to be there: `handle_io` puts it
in, and the loop that serves the queue puts it back if it still waits.
-/

namespace Wasapi.FcgiConn

open Fastcgi

variable {cfg : GlobalConfig} {w w' : World}

/-- Whoever waits is queued. -/
def AllQueued (w : World) : Prop :=
  ∀ fd c, w.conns.lookup fd = some c → c.Waits → fd ∈ w.waitingConns

private theorem AllQueued.calm (h : AllQueued w) (hcalm : Calm w w') : AllQueued w' := by
  intro fd c' hc' hw
  obtain ⟨c, hc, hcalmer⟩ := hcalm.conns hc' hw
  exact hcalm.waitingConns ▸ h fd c hc (hcalmer hw).1

private theorem queue_internalOnRequestReady (r : Request) (w : World) :
    ((internalOnRequestReady cfg r w).2.waitingConns, (internalOnRequestReady cfg r w).2.wsArenas)
      = (w.waitingConns, w.wsArenas) := by
  rw [internalOnRequestReady]
  split
  · rfl
  split
  · rfl
  · simp only
    rw [World.updateRef_eq]

private theorem queue_allocateRequest (io : ConnRef) (id : UInt16) (w : World) :
    ((allocateRequest cfg io id w).2.waitingConns, (allocateRequest cfg io id w).2.wsArenas)
      = (w.waitingConns, w.wsArenas) := by
  rw [allocateRequest]
  split
  · rfl
  simp only
  split
  · rfl
  · rfl

/-- `process_buffer` touches neither the queue nor the arenas of the websocket tasks. -/
theorem queue_turn (cfg : GlobalConfig) (io : ConnRef) (m : Machine World) (rec : Record) :
    (turn cfg.toLimits (callbacks cfg io) m rec).ext.waitingConns = m.ext.waitingConns ∧
      (turn cfg.toLimits (callbacks cfg io) m rec).ext.wsArenas = m.ext.wsArenas :=
  Prod.mk.inj <| frame_turn (g := fun w ↦ (w.waitingConns, w.wsArenas))
    queue_internalOnRequestReady (queue_allocateRequest io) m rec

theorem queue_processFcgi (cfg : GlobalConfig) (fd : ℤ) (w : World) :
    (processFcgi cfg fd w).waitingConns = w.waitingConns :=
  frame_processFcgi (g := World.waitingConns)
    (fun r w ↦ congrArg Prod.fst (queue_internalOnRequestReady r w))
    (fun io id w ↦ congrArg Prod.fst (queue_allocateRequest io id w))
    (fun w fd f ↦ by rw [World.updateConn_eq]) fd w

/-- Nobody else starts to wait. -/
theorem waits_processFcgi {fd k : ℤ} {c' : Connection}
    (hc' : (processFcgi cfg fd w).conns.lookup k = some c') (hw : c'.Waits) (hk : k ≠ fd) :
    ∃ c, w.conns.lookup k = some c ∧ Calmer c c' := by
  obtain ⟨c, active, hc, -, ⟨-, rfl⟩ | ⟨rfl, -⟩⟩ := processFcgi_cases cfg hc'
  · exact ⟨c, hc, .of_requests rfl List.prefix_rfl (fun h ↦ h) rfl⟩
  · exact absurd rfl hk

/-- A connection that still waits goes to the end of the queue again. -/
theorem allQueued_waitingLoop (h : AllQueued w) (n budget : ℕ) :
    AllQueued (waitingLoop cfg n budget w) := by
  induction n generalizing budget w with
  | zero => exact h
  | succ n ih =>
    rw [waitingLoop]
    split
    · exact h
    split
    · exact h
    next fd fds hqueue =>
    have hpopped {k : ℤ} {c : Connection} (hc : w.conns.lookup k = some c) (hw : c.Waits)
        (hk : k ≠ fd) : k ∈ fds :=
      (List.mem_cons.mp (hqueue ▸ h k c hc hw)).resolve_left hk
    have htail (hfd : ∀ c, w.conns.lookup fd = some c → ¬c.Waits) :
        AllQueued { w with waitingConns := fds } := by
      intro k c hc hw
      refine hpopped hc hw ?_
      rintro rfl
      exact hfd c hc hw
    simp only
    split
    · next hnone => exact ih (htail fun c hc _ ↦ Option.some_ne_none c (hc.symm.trans hnone)) _
    next c hc =>
    split
    · next hclosed =>
      refine ih (htail fun c' hc' hw ↦ ?_) _
      cases (Option.some.inj (hc.symm.trans hc') ▸ hclosed).symm.trans hw.1
    have hqueue' := queue_processFcgi cfg fd { w with waitingConns := fds }
    set w' := processFcgi cfg fd { w with waitingConns := fds }
    -- behind it everybody but possibly the connection itself is still queued
    have hothers {k : ℤ} {c : Connection} (hc : w'.conns.lookup k = some c) (hw : c.Waits)
        (hk : k ≠ fd) : k ∈ w'.waitingConns := by
      obtain ⟨c₀, hc₀, hcalmer⟩ := waits_processFcgi hc hw hk
      exact hqueue' ▸ hpopped hc₀ (hcalmer hw).1 hk
    have hserved (hnot : (w'.conns.lookup fd).any (fun c ↦ c.waitingForArena) ≠ true) :
        AllQueued w' := by
      intro k c hc hw
      refine hothers hc hw ?_
      rintro rfl
      rw [hc, Option.any_some] at hnot
      exact absurd hw.2 hnot
    split
    · next hdone =>
      rw [Bool.and_eq_true, Bool.not_eq_true'] at hdone
      refine ih ((hserved ?_).calm (calm_flushConnection fd w')) _
      rw [hdone.2]
      exact Bool.false_ne_true
    split
    · refine ih (fun k c hc hw ↦ ?_) _
      by_cases hk : k = fd
      · exact List.mem_append_right _ (hk ▸ List.mem_singleton_self _)
      · exact List.mem_append_left _ (hothers hc hw hk)
    · next hnot => exact ih (hserved hnot) _

/-! ## Events

Who starts to wait does so in `handle_io`, which puts it in the queue, or in the loop over the
queue, which puts it back. No other place sets `waiting_for_arena`. -/

/-- Whoever starts to wait in `handle_io` is put into the queue. -/
theorem AllQueued.handleInput (h : AllQueued w) (fd : ℤ) (data : Bytes) (ending : RecvEnd) :
    AllQueued (handleInput cfg fd data ending w) := by
  have hread := h.calm (calm_readAll fd data ending w)
  rw [FcgiConn.handleInput]
  set w₁ := readAll fd data ending w
  have hqueue := queue_processFcgi cfg fd w₁
  refine AllQueued.calm ?_ (calm_flushConnection fd _)
  have hothers {k : ℤ} {c : Connection} (hc : (processFcgi cfg fd w₁).conns.lookup k = some c)
      (hw : c.Waits) (hk : k ≠ fd) : k ∈ w₁.waitingConns := by
    obtain ⟨c₀, hc₀, hcalmer⟩ := waits_processFcgi hc hw hk
    exact hread k c₀ hc₀ (hcalmer hw).1
  split
  · refine fun k c hc hw ↦ ?_
    by_cases hk : k = fd
    · exact List.mem_append_right _ (hk ▸ List.mem_singleton_self _)
    · exact List.mem_append_left _ (hqueue ▸ hothers hc hw hk)
  · next hold =>
    intro k c hc hw
    rw [hqueue]
    by_cases hk : k = fd
    · -- it has waited before, and has been queued since
      subst hk
      rw [hc, Option.any_some, hw.2, Bool.and_true, Bool.not_eq_true', Bool.not_eq_false,
        Option.any_eq_true] at hold
      obtain ⟨c₀, hc₀, hwaited⟩ := hold
      refine hread k c₀ hc₀ ⟨?_, hwaited⟩
      obtain ⟨c₁, active, hc₁, -, ⟨-, rfl⟩ | ⟨-, hopen, -⟩⟩ := processFcgi_cases cfg hc
      · rw [← Option.some.inj (hc₁.symm.trans hc₀)]
        exact hw.1
      · rwa [← Option.some.inj (hc₁.symm.trans hc₀)]
    · exact hothers hc hw hk

theorem AllQueued.releaseRequest (cfg : GlobalConfig) (h : AllQueued w) (fd : ℤ) (id : UInt16) :
    AllQueued (releaseRequest cfg fd id w) := by
  have hmarked := h.calm (calm_destroyRequest fd id w).1
  have hdestroyed : AllQueued (destroyRequest fd id w) := hmarked
  rw [FcgiConn.releaseRequest, processWaitingConnections]
  refine allQueued_waitingLoop ?_ _ _
  split
  · exact hdestroyed
  · exact hdestroyed

/-- **No waiting connection is forgotten.** Whatever happens, in any order. -/
theorem always_allQueued (cfg : GlobalConfig) (app : Application) (bases : List UInt64)
    (capacity : UInt64) (events : List Event) :
    Always (step cfg app) AllQueued (initial bases capacity) events := by
  refine always_of_invariant (fun w e h ↦ ?_) (fun fd c hc ↦ ?_) events
  · refine invariant_step (fun hcalm h ↦ h.calm hcalm)
      (fun fd data ending w h ↦ h.handleInput fd data ending)
      (fun fd id w h ↦ h.releaseRequest cfg fd id) app h e ?_ ?_
    · rw [step]
      split
      · exact h
      · exact h
    · rintro k rfl
      rw [step]
      split
      · exact h
      · exact h
  · cases hc

end Wasapi.FcgiConn
