import Wasapi.Fastcgi.Isolation
import Wasapi.Websockets.FrameCodec

/-!
# One handler, two transports

A handler writes its text as STDOUT records and ends the request, and one handler is registered for
websocket messages and for plain HTTP. The task of `schedule_http` takes the text out of the records
again. The task of `schedule_message` has no such step: it frames the records as they are.
-/

namespace Wasapi.Websockets

open Fastcgi

/-- What a handler emits: its texts with `append_stdout_text`, and then `append_end_request`. -/
def handlerOutput (id : UInt16) (texts : List Bytes) (appStatus : UInt32)
    (status : ProtocolStatus) : Bytes :=
  appendEndRequest (texts.foldl (fun out text ↦ appendStdoutText out id text) []) id appStatus
    status

section

variable (id : UInt16) (texts : List Bytes) (appStatus : UInt32) (status : ProtocolStatus)

theorem foldl_appendStdoutText (out : Bytes) : ∃ outs : List Record,
    (∀ rec ∈ outs, rec.type = FCGI_STDOUT) ∧ outs.flatMap Record.content = texts.flatten ∧
      texts.foldl (fun out text ↦ appendStdoutText out id text) out
        = out ++ outs.flatMap Record.encode := by
  induction texts generalizing out with
  | nil => exact ⟨[], fun rec hrec ↦ (nomatch hrec), rfl, (List.append_nil out).symm⟩
  | cons text texts ih =>
    obtain ⟨first, hfirst, htext, heq⟩ := appendStdoutText_eq out id text
    obtain ⟨outs, houts, htexts, heqs⟩ := ih (appendStdoutText out id text)
    refine ⟨first ++ outs, fun rec hrec ↦ ?_, ?_, ?_⟩
    · rcases List.mem_append.mp hrec with hrec | hrec
      · exact (hfirst rec hrec).1
      · exact houts rec hrec
    · rw [List.flatMap_append, htext, htexts, List.flatten_cons]
    · rw [List.foldl_cons, heqs, heq, List.flatMap_append, List.append_assoc]

private theorem handlerOutput_eq : ∃ outs : List Record,
    (∀ rec ∈ outs, rec.type = FCGI_STDOUT) ∧ outs.flatMap Record.content = texts.flatten ∧
      handlerOutput id texts appStatus status
        = (outs ++ [endRequestRecord id appStatus status]).flatMap Record.encode := by
  obtain ⟨outs, houts, hcontent, heq⟩ := foldl_appendStdoutText id texts []
  refine ⟨outs, houts, hcontent, ?_⟩
  rw [handlerOutput, appendEndRequest_eq, heq, List.nil_append, List.flatMap_append,
    List.flatMap_singleton]

/-- **The text is found in the records** however they split it. -/
theorem stdoutText_handlerOutput :
    stdoutText (handlerOutput id texts appStatus status) = texts.flatten := by
  obtain ⟨outs, houts, hcontent, heq⟩ := handlerOutput_eq id texts appStatus status
  have hend : (endRequestRecord id appStatus status).type ≠ FCGI_STDOUT :=
    (by decide : FCGI_END_REQUEST ≠ FCGI_STDOUT)
  have hfilter : (outs ++ [endRequestRecord id appStatus status]).filter
      (fun rec ↦ rec.type = FCGI_STDOUT) = outs := by
    rw [List.filter_append, List.filter_eq_self.mpr fun rec hrec ↦ decide_eq_true (houts rec hrec),
      List.filter_singleton, decide_eq_false hend]
    exact List.append_nil outs
  rw [stdoutText, heq, frames_flatMap_encode, hfilter, hcontent]

private theorem length_content_le (recs : List Record) :
    (recs.flatMap Record.content).length ≤ (recs.flatMap Record.encode).length := by
  induction recs with
  | nil => exact le_rfl
  | cons rec recs ih =>
    have hrec : rec.content.length ≤ rec.encode.length := by
      rw [Record.encode, List.length_append, List.length_append]
      omega
    rw [List.flatMap_cons, List.flatMap_cons, List.length_append, List.length_append]
    exact Nat.add_le_add hrec ih

/-- The records are longer than the text. -/
theorem length_text_lt :
    texts.flatten.length < (handlerOutput id texts appStatus status).length := by
  obtain ⟨outs, -, hcontent, heq⟩ := handlerOutput_eq id texts appStatus status
  have hle := length_content_le outs
  have hend := (endRequestRecord id appStatus status).size_le_length_encode
  rw [hcontent] at hle
  rw [heq, List.flatMap_append, List.length_append, List.flatMap_singleton]
  have hsize : 0 < Header.size := by decide
  omega

end

/-! ## The frame of a message

The task of `schedule_message` puts the whole output of the handler into a frame, records and all. A
record is longer than the text in it, so the payload cannot be the text, whatever the handler has
written. -/

private theorem length_buildWsFrame_lt (opcode : UInt8) {p q : Bytes} (h : p.length < q.length) :
    (buildWsFrame opcode p).length < (buildWsFrame opcode q).length := by
  simp only [buildWsFrame, List.length_cons, List.length_append]
  split_ifs <;> simp only [List.length_cons, List.length_nil, length_beBytes] <;> omega

/-- A task of `schedule_message` whose handler has emitted `texts`. -/
structure Answering (app : Application) (t : Task) (opcode : UInt8) (texts : List Bytes) where
  callback : Request → Request × Bytes
  cbws : app.cbws = some callback
  kind : t.kind = .message opcode
  id : UInt16
  appStatus : UInt32
  status : ProtocolStatus
  output : (callback t.request).2 = handlerOutput id texts appStatus status

/-- Two transports, one output: the task queues the frame of the text that `schedule_http` would
take out of what the handler has emitted. -/
def QueuesText {app : Application} {t : Task} {opcode : UInt8} {texts : List Bytes}
    (h : Answering app t opcode texts) (k : ℕ) (s : Server) : Prop :=
  (workerStep app k s).pendingFrames
    = s.pendingFrames ++
      [⟨t.fd, buildWsFrame opcode (stdoutText (h.callback t.request).2), t.origin⟩]

private theorem Answering.frame_eq {app : Application} {t : Task} {opcode : UInt8}
    {texts : List Bytes} (h : Answering app t opcode texts) :
    t.frame app = buildWsFrame opcode (h.callback t.request).2 := by
  have hlen := length_text_lt h.id texts h.appStatus h.status
  have hne : (h.callback t.request).2.isEmpty = false := by
    rw [h.output]
    cases hout : handlerOutput h.id texts h.appStatus h.status with
    | nil =>
      rw [hout] at hlen
      exact absurd hlen (Nat.not_lt_zero _)
    | cons b out => rfl
  rw [Task.frame, h.kind]
  simp only
  rw [h.cbws]
  simp only
  rw [hne]
  rfl

theorem Answering.pendingFrames_eq {app : Application} {t : Task} {opcode : UInt8}
    {texts : List Bytes} (h : Answering app t opcode texts) {k : ℕ} {s : Server}
    (htask : s.tasks[k]? = some t) (hphase : t.phase = .started) :
    (workerStep app k s).pendingFrames
      = s.pendingFrames ++ [⟨t.fd, buildWsFrame opcode (h.callback t.request).2, t.origin⟩] := by
  rw [workerStep, htask]
  simp only [hphase]
  rw [h.frame_eq]
  rfl

/-- **A websocket client is sent the records**, headers and all, and never the text in them. -/
theorem not_queuesText {app : Application} {t : Task} {opcode : UInt8} {texts : List Bytes}
    (h : Answering app t opcode texts) {k : ℕ} {s : Server} (htask : s.tasks[k]? = some t)
    (hphase : t.phase = .started) :
    stdoutText (h.callback t.request).2 = texts.flatten ∧
      (workerStep app k s).pendingFrames
        = s.pendingFrames ++ [⟨t.fd, buildWsFrame opcode (h.callback t.request).2, t.origin⟩] ∧
      ¬QueuesText h k s := by
  have htext : stdoutText (h.callback t.request).2 = texts.flatten := by
    rw [h.output, stdoutText_handlerOutput]
  have hframes := h.pendingFrames_eq htask hphase
  refine ⟨htext, hframes, fun hqueues ↦ ?_⟩
  have hlen := length_text_lt h.id texts h.appStatus h.status
  rw [← h.output] at hlen
  have hlt := length_buildWsFrame_lt opcode hlen
  rw [QueuesText, hframes, htext] at hqueues
  have heq := List.append_cancel_left hqueues
  rw [List.singleton_inj, PendingFrame.mk.injEq] at heq
  rw [heq.2.1] at hlt
  exact absurd hlt (lt_irrefl _)

/-- A handler that answers every request with two letters. -/
def greeter : Application where
  sha1 := id
  parse := id
  cbws := some fun r ↦ (r, handlerOutput r.id [ascii "ok"] 0 .requestComplete)
  cbhttp := some fun r ↦ (r, handlerOutput r.id [ascii "ok"] 0 .requestComplete)

/-- The task for a text message of the client at 5. -/
def greeting : Task := ⟨.message 0x1, 5, .ofArena 0 0, 0, .started⟩

def greetingAnswering : Answering greeter greeting 0x1 [ascii "ok"] where
  callback r := (r, handlerOutput r.id [ascii "ok"] 0 .requestComplete)
  cbws := rfl
  kind := rfl
  id := 0
  appStatus := 0
  status := .requestComplete
  output := rfl

def greeted : Server := { tasks := [greeting], arenas := .createArenas [] 0 }

theorem not_queuesText_greeting : ¬QueuesText greetingAnswering 0 greeted :=
  (not_queuesText greetingAnswering (s := greeted) rfl rfl).2.2

theorem not_always_queuesText :
    ¬∀ (app : Application) (t : Task) (opcode : UInt8) (texts : List Bytes)
      (h : Answering app t opcode texts) (k : ℕ) (s : Server), s.tasks[k]? = some t →
      t.phase = .started → QueuesText h k s := by
  intro hall
  have hqueues := hall greeter greeting 0x1 [ascii "ok"] greetingAnswering 0 greeted rfl rfl
  have hframes := congrArg (List.map PendingFrame.frame) hqueues
  -- the frame has a FastCGI header where the letters should be
  have hne : (workerStep greeter 0 greeted).pendingFrames.map PendingFrame.frame
      ≠ [buildWsFrame 0x1 (ascii "ok")] := by
    decide +kernel
  exact hne hframes

end Wasapi.Websockets
