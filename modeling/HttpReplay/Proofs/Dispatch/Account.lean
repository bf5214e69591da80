import HttpReplay.Proofs.Dispatch.Ledger

/-!
# The account of a run with a handler

A handler is called once for each message, with the chunk in which the message starts, and what it
answers stands before the chunks that are left over. Here the ledger of the last state is read as
an account of the whole stream: what the calls took of a direction is a first part of its bytes,
and the chunks that are left over are those that reach behind it.

`HttpReplay.Http.dispatch_accounts` is the account.
-/

namespace HttpReplay.Http

open Dispatch Event

variable {σ : Type} {stream : Stream} {chunks : List Chunk}

/-! ### Calls -/

/-- The calls of a handler: each message with the chunk in which it starts. -/
def Dispatch.calls (chunks : List Chunk) (events : List Event) : List (Chunk × Event) :=
  events.filterMap fun event => chunks[event.start]?.map (·, event)

/-- What a handler answers to its calls, one after the other. -/
def Handler.answers (handler : Handler σ) : σ → List (Chunk × Event) → List (List Chunk)
  | _, [] => []
  | state, (chunk, event) :: rest =>
    (handler state chunk event).2 :: handler.answers (handler state chunk event).1 rest

/-- The state of a handler after its calls. -/
def Handler.run (handler : Handler σ) : σ → List (Chunk × Event) → σ
  | state, [] => state
  | state, (chunk, event) :: rest => handler.run (handler state chunk event).1 rest

theorem calls_cons_of_some {chunk : Chunk} {event : Event} (h : chunks[event.start]? = some chunk)
    (events : List Event) :
    calls chunks (event :: events) = (chunk, event) :: calls chunks events := by
  simp [calls, h]

theorem calls_cons_of_none {event : Event} (h : chunks[event.start]? = none)
    (events : List Event) : calls chunks (event :: events) = calls chunks events := by
  simp [calls, h]

theorem handle_eq (handler : Handler σ) (chunks : List Chunk) (state : σ) (events : List Event) :
    handle handler chunks state events =
      (handler.run state (calls chunks events),
        (handler.answers state (calls chunks events)).flatten) := by
  induction events generalizing state with
  | nil => rfl
  | cons event events ih =>
    rw [handle]
    split
    · rename_i h
      rw [calls_cons_of_none h, ih]
    · rename_i chunk h
      rw [calls_cons_of_some h, Handler.run, Handler.answers, List.flatten_cons]
      simp only [ih]

/-- A handler is called for every message. -/
theorem map_snd_calls {events : List Event} (h : ∀ event ∈ events, event.start < chunks.length) :
    (calls chunks events).map (·.2) = events := by
  induction events with
  | nil => rfl
  | cons event events ih =>
    obtain ⟨hevent, hevents⟩ := List.forall_mem_cons.mp h
    rw [calls_cons_of_some (List.getElem?_eq_getElem hevent), List.map_cons, ih hevents]

theorem chunk_of_mem_calls {events : List Event} {call : Chunk × Event}
    (h : call ∈ calls chunks events) : chunks[call.2.start]? = some call.1 := by
  obtain ⟨event, -, he⟩ := List.mem_filterMap.mp h
  obtain ⟨chunk, hc, rfl⟩ := Option.map_eq_some_iff.mp he
  exact hc

/-! ### Chunks left over at the end -/

theorem mem_leftOver_dispatch {i : Nat} {chunk : Chunk} (hc : stream.chunks[i]? = some chunk) :
    i ∈ (dispatch stream).leftOver ↔
      if chunk.content = [] then ((stage stream i).pending chunk.direction).gaveUp = true
      else (wireOf chunk.direction (dispatch stream).events).length <
        (stream.bytesBefore chunk.direction (i + 1)).length := by
  have hlt : i < stream.chunks.length := (List.getElem?_eq_some_iff.mp hc).1
  have hl := (reached_dispatch stream).ledger
  have hleft : i ∈ (dispatch stream).leftOver ↔ IsLeft stream (dispatch stream) i chunk := by
    rw [hl.left]
    constructor
    · rintro ⟨-, chunk', hc', h⟩
      rw [hc] at hc'
      cases hc'
      exact h
    · exact fun h => ⟨hlt, chunk, hc, h⟩
  rw [hleft, IsLeft]
  refine and_iff_right_of_imp fun h => ?_
  split at h
  · exact hl.earlier i hlt _ h
  · -- A direction that was never given up has no byte left.
    by_contra hg
    rcases isOver_dispatch stream chunk.direction with hg' | hb
    · exact hg hg'
    · have hgoing := hl.going chunk.direction (Bool.not_eq_true _ ▸ hg)
      rw [hb, List.append_nil] at hgoing
      rw [hgoing] at h
      exact Nat.not_lt.mpr (Stream.bytesBefore_mono hlt).length_le h

/-- **Every byte is accounted for.** Whatever the stream and the handler, the handler is called once
for each message with the chunk in which it starts, and the answer is what the handler answered,
in that order, followed by the chunks that were left over, in the order of the stream. What the
calls took of a direction is a first part of its bytes; a chunk that holds bytes is left over just
when one of them lies behind that part, and an empty chunk just when its direction had been given
up before. -/
theorem dispatch_accounts (stream : Stream) (handler : Handler σ) (state : σ) :
    let run := dispatch stream
    let calls := Dispatch.calls stream.chunks run.events
    (calls.map (·.2) = run.events ∧
      ∀ call ∈ calls, stream.chunks[call.2.start]? = some call.1) ∧
    run.kept handler state stream =
      (handler.run state calls,
        (handler.answers state calls).flatten ++ run.leftOver.filterMap (stream.chunks[·]?)) ∧
    (run.leftOver.Pairwise (· < ·) ∧ ∀ i ∈ run.leftOver, i < stream.chunks.length) ∧
    (∀ d, wireOf d (calls.map (·.2)) <+: stream.bytes d) ∧
    ∀ i chunk, stream.chunks[i]? = some chunk →
      (i ∈ run.leftOver ↔
        if chunk.content = [] then ((stage stream i).pending chunk.direction).gaveUp = true
        else (wireOf chunk.direction (calls.map (·.2))).length <
          (stream.bytesBefore chunk.direction (i + 1)).length) := by
  intro run calls
  have hr := reached_dispatch stream
  have hcalls : calls.map (·.2) = run.events := map_snd_calls fun event he => hr.start_lt he
  refine ⟨⟨hcalls, fun call h => chunk_of_mem_calls h⟩, ?_, ⟨hr.ledger.ascending, ?_⟩, ?_, ?_⟩
  · rw [kept, handle_eq]
  · exact fun i hi => ((hr.ledger.left i).mp hi).1
  · intro d
    rw [hcalls, ← Stream.bytesBefore_of_length_le (Nat.le_refl stream.chunks.length)]
    exact hr.ledger.taken d
  · intro i chunk hc
    rw [hcalls]
    exact mem_leftOver_dispatch hc

end HttpReplay.Http
