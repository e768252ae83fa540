import Pktscope.Ipc.Fanout
import Pktscope.Ipc.Protocol

/-! # Sessions of clients

Every connection has a handler of its own, which reads one line after the other. It
answers each before it reads the next, until a subscription turns the connection
into a stream of events or the daemon is stopped. The clients, the handlers and the
worker move in any order.
-/

namespace Pktscope

open Library

/-- A line as the handler parses it: a request, or the text of the error. -/
abbrev ClientLine := Except String Request

/-- A line that the handler writes. -/
inductive ServerLine (F : Type) where
  | response (r : Response F)
  | event (ev : Event F)

inductive HandlerMode where
  | reading
  | streaming (sub : ℕ)
  | closed
  deriving DecidableEq

/-- A connection: the lines from the client, the lines to the client, and where its handler is. -/
structure ClientConn (F : Type) where
  requests : Channel ClientLine
  lines : Channel (ServerLine F)
  mode : HandlerMode

def ClientConn.new {F : Type} : ClientConn F := ⟨.new, .new, .reading⟩

/-- The server, with the connections in the order in which they were accepted. -/
structure IpcServer (F : Type) where
  ctx : ServerCtx F
  stop : Bool
  bus : Bus (Event F)
  conns : List (ClientConn F)

/-- A move of a client, of a handler, of the accept loop or of the worker. -/
inductive IpcMove (F : Type) where
  | accept
  | send (c : ℕ) (line : ClientLine)
  /-- The handler of a connection goes on. -/
  | serve (c : ℕ)
  /-- The client reads a line. -/
  | receive (c : ℕ)
  /-- The client goes away; its lines can still be read. -/
  | hangup (c : ℕ)
  /-- The worker changes the store and the live table in any way. -/
  | change (ctx : ServerCtx F)
  | broadcast (ev : Event F)

namespace IpcServer

variable {F : Type} [SerdeJson F] (o : OrderBy)

def start (ctx : ServerCtx F) : IpcServer F := ⟨ctx, false, .new, []⟩

/-- The handler returns, and the receiver of its subscription is dropped. -/
def quit (s : IpcServer F) (c : ℕ) (conn : ClientConn F) : IpcServer F where
  ctx := s.ctx
  stop := s.stop
  bus :=
    match conn.mode with
    | .streaming i => s.bus.step (.hangup i)
    | _ => s.bus
  conns := s.conns.set c { conn with mode := .closed }

/-- The handler writes a line; it returns when the client has gone. -/
def writeLine (s : IpcServer F) (c : ℕ) (conn : ClientConn F) (line : ServerLine F) : IpcServer F :=
  if conn.lines.isOpen then
    { s with conns := s.conns.set c { conn with lines := conn.lines.push line } }
  else s.quit c conn

/-- What a line does to the server, the response to it, and how the handler goes on. -/
def respond (s : IpcServer F) : ClientLine → IpcServer F × Response F × HandlerMode
  | .error message => (s, .error message, .reading)
  | .ok .subscribe =>
    ({ s with bus := s.bus.step .subscribe }, .subscribed, .streaming s.bus.chans.length)
  | .ok .stop => ({ s with stop := true }, .stopping, .closed)
  | .ok request => (s, s.ctx.handleQuery o request, .reading)

/-- One round of the handler of a connection. -/
def serve (s : IpcServer F) (c : ℕ) : IpcServer F :=
  match s.conns[c]? with
  | none => s
  | some conn =>
    match conn.mode with
    | .closed => s
    | .streaming i =>
      match s.bus.chans[i]?.bind fun chan => chan.queue.head? with
      | none => s
      | some ev => { s with bus := s.bus.step (.recv i) }.writeLine c conn (.event ev)
    | .reading =>
      match conn.requests.queue with
      | [] => if conn.requests.isOpen then s else s.quit c conn
      | line :: _ =>
        let (s, r, mode) := s.respond o line
        s.writeLine c { conn with requests := conn.requests.recv, mode } (.response r)

def modifyConn (s : IpcServer F) (c : ℕ) (f : ClientConn F → ClientConn F) : IpcServer F :=
  { s with conns := s.conns.modify c f }

def step (s : IpcServer F) : IpcMove F → IpcServer F
  | .accept => if s.stop then s else { s with conns := s.conns ++ [.new] }
  | .send c line => s.modifyConn c fun conn => { conn with requests := conn.requests.push line }
  | .serve c => s.serve o c
  | .receive c => s.modifyConn c fun conn => { conn with lines := conn.lines.recv }
  | .hangup c => s.modifyConn c fun conn => { conn with
      requests := { conn.requests with isOpen := false }
      lines := conn.lines.hangup }
  | .change ctx => { s with ctx }
  | .broadcast ev => { s with bus := s.bus.step (.broadcast ev) }

def run (ctx : ServerCtx F) (moves : List (IpcMove F)) : IpcServer F :=
  moves.foldl (step o) (start ctx)

section Log

/-- The line that the handler of a connection reads, if the client is there for the response. -/
def reads? (c : ℕ) (s : IpcServer F) : IpcMove F → Option ClientLine
  | .serve c' =>
    if c' = c then
      s.conns[c]?.bind fun conn =>
        if conn.mode = .reading ∧ conn.lines.isOpen = true then conn.requests.queue.head? else none
    else none
  | _ => none

/-- A line with the response to it. -/
def answers? (c : ℕ) (s : IpcServer F) (m : IpcMove F) : Option (ClientLine × Response F) :=
  (s.reads? c m).map fun line => (line, (s.respond o line).2.1)

/-- The event that the handler of a connection passes on, if the client is there for it. -/
def passes? (c : ℕ) (s : IpcServer F) : IpcMove F → Option (Event F)
  | .serve c' =>
    if c' = c then
      s.conns[c]?.bind fun conn =>
        match conn.mode with
        | .streaming i =>
          if conn.lines.isOpen then s.bus.chans[i]?.bind fun chan => chan.queue.head? else none
        | _ => none
    else none
  | _ => none

/-- The lines that were answered on a connection, in order, with the responses. -/
def answered (ctx : ServerCtx F) (c : ℕ) (moves : List (IpcMove F)) :
    List (ClientLine × Response F) :=
  logOf (step o) (answers? o c) (start ctx) moves

/-- The events that were passed on, in order. -/
def passed (ctx : ServerCtx F) (c : ℕ) (moves : List (IpcMove F)) : List (Event F) :=
  logOf (step o) (passes? c) (start ctx) moves

/-- The events that were broadcast. -/
def broadcasts (moves : List (IpcMove F)) : List (Event F) :=
  moves.filterMap fun
    | .broadcast ev => some ev
    | _ => none

end Log

/-- What a line does to the bus. -/
def busMoves : ClientLine → List (Bus.Move (Event F))
  | .ok .subscribe => [.subscribe]
  | _ => []

/-- One round of a handler: its connection after it, the moves of the bus, and what it answered or
passed on. -/
inductive Round (s : IpcServer F) (conn : ClientConn F) : ClientConn F → List (Bus.Move (Event F)) →
    Option (ClientLine × Response F) → Option (Event F) → Prop
  | idle : Round s conn conn [] none none
  | ended (mode : conn.mode = .reading) : Round s conn { conn with mode := .closed } [] none none
  | answer {line : ClientLine} {queue : List ClientLine} (mode : conn.mode = .reading)
      (hqueue : conn.requests.queue = line :: queue) (hopen : conn.lines.isOpen = true) :
      Round s conn ⟨conn.requests.recv, conn.lines.push (.response (s.respond o line).2.1),
        (s.respond o line).2.2⟩ (busMoves line) (some (line, (s.respond o line).2.1)) none
  | lost {line : ClientLine} {queue : List ClientLine} (ms : List (Bus.Move (Event F)))
      (mode : conn.mode = .reading) (hqueue : conn.requests.queue = line :: queue)
      (hclosed : conn.lines.isOpen = false)
      (quiet : ∀ m ∈ ms, m = .subscribe ∨ ∃ i, m = .hangup i) :
      Round s conn ⟨conn.requests.recv, conn.lines, .closed⟩ ms none none
  | pass {i : ℕ} {chan : Channel (Event F)} {ev : Event F} {queue : List (Event F)}
      (mode : conn.mode = .streaming i) (hchan : s.bus.chans[i]? = some chan)
      (hqueue : chan.queue = ev :: queue) (hopen : conn.lines.isOpen = true) :
      Round s conn ⟨conn.requests, conn.lines.push (.event ev), conn.mode⟩ [.recv i] none (some ev)
  | left {i : ℕ} (mode : conn.mode = .streaming i) (hclosed : conn.lines.isOpen = false) :
      Round s conn { conn with mode := .closed } [.recv i, .hangup i] none none

section Rounds

variable {s : IpcServer F} {c : ℕ} {conn : ClientConn F}

@[simp] theorem conns_respond (s : IpcServer F) (line : ClientLine) :
    (s.respond o line).1.conns = s.conns := by
  rcases line with message | request
  · rfl
  · cases request <;> rfl

theorem bus_respond (s : IpcServer F) (line : ClientLine) :
    (s.respond o line).1.bus = (busMoves line).foldl Bus.step s.bus := by
  rcases line with message | request
  · rfl
  · cases request <;> rfl

theorem bus_quit_respond (s : IpcServer F) (c : ℕ) (line : ClientLine) (requests : Channel ClientLine)
    (lines : Channel (ServerLine F)) : ∃ ms : List (Bus.Move (Event F)),
      ((s.respond o line).1.quit c ⟨requests, lines, (s.respond o line).2.2⟩).bus =
        ms.foldl Bus.step s.bus ∧ ∀ m ∈ ms, m = .subscribe ∨ ∃ i, m = .hangup i := by
  rcases line with message | request
  · exact ⟨[], by simp [respond, quit], by simp⟩
  · cases request
    case subscribe =>
      exact ⟨[.subscribe, .hangup s.bus.chans.length], by simp [respond, quit], by simp⟩
    all_goals exact ⟨[], by simp [respond, quit], by simp⟩

theorem serve_round (hc : s.conns[c]? = some conn) : ∃ conn' ms,
    Round o s conn conn' ms (s.answers? o c (.serve c)) (s.passes? c (.serve c)) ∧
      (s.serve o c).conns = s.conns.set c conn' ∧ (s.serve o c).bus = ms.foldl Bus.step s.bus := by
  have hself : s.conns = s.conns.set c conn := by
    obtain ⟨hlt, rfl⟩ := List.getElem?_eq_some_iff.mp hc
    exact (List.set_getElem_self hlt).symm
  simp only [serve, answers?, reads?, passes?, hc, if_true, Option.bind_some]
  cases hmode : conn.mode with
  | closed => exact ⟨conn, [], by simpa [hmode] using Round.idle, hself, rfl⟩
  | streaming i =>
    cases hnext : s.bus.chans[i]?.bind fun chan => chan.queue.head? with
    | none =>
      refine ⟨conn, [], by simpa [hmode, hnext] using Round.idle, ?_, ?_⟩
      · simpa [hnext] using hself
      · simp [hnext]
    | some ev =>
      obtain ⟨chan, hchan, hhead⟩ := Option.bind_eq_some_iff.mp hnext
      obtain ⟨queue, hqueue⟩ := List.head?_eq_some_iff.mp hhead
      cases hopen : conn.lines.isOpen with
      | true =>
        refine ⟨_, _, by simpa [hmode, hnext, hopen] using .pass hmode hchan hqueue hopen, ?_, ?_⟩
        · simp [writeLine, hopen, hnext]
        · simp [writeLine, hopen, hnext]
      | false =>
        refine ⟨_, _, by simpa [hmode, hnext, hopen] using .left hmode hopen, ?_, ?_⟩
        · simp [writeLine, hopen, quit, hnext]
        · simp [writeLine, hopen, quit, hmode, hnext]
  | reading =>
    cases hqueue : conn.requests.queue with
    | nil =>
      cases hrest : conn.requests.isOpen with
      | true =>
        refine ⟨conn, [], by simpa [hmode, hqueue] using Round.idle, ?_, ?_⟩
        · simpa using hself
        · simp
      | false =>
        refine ⟨_, _, by simpa [hmode, hqueue] using .ended hmode, ?_, ?_⟩
        · simp [quit]
        · simp [quit, hmode]
    | cons line queue =>
      cases hopen : conn.lines.isOpen with
      | true =>
        refine ⟨_, _, by simpa [hmode, hqueue, hopen] using .answer hmode hqueue hopen, ?_, ?_⟩
        · simp [writeLine, hopen]
        · simp [writeLine, hopen, bus_respond]
      | false =>
        obtain ⟨ms, hms, hquiet⟩ :=
          bus_quit_respond o s c line conn.requests.recv conn.lines
        refine ⟨⟨conn.requests.recv, conn.lines, .closed⟩, ms, ?_, ?_, ?_⟩
        · simpa [hmode, hqueue, hopen] using Round.lost ms hmode hqueue hopen hquiet
        · simp [writeLine, hopen, quit]
        · simpa [writeLine, hopen] using hms

end Rounds

/-- A line after which the handler reads on. -/
def Plain (line : ClientLine) : Prop := line ≠ .ok .subscribe ∧ line ≠ .ok .stop

/-- The lines of a connection, by what was answered and what was passed on. -/
def linesOf (answers : List (ClientLine × Response F)) (events : List (Event F)) :
    List (ServerLine F) :=
  answers.map (fun a => .response a.2) ++ events.map .event

/-- A connection has answered lines in order and then passed on the events of its subscription. -/
structure Follows (bus : Bus (Event F)) (answers : List (ClientLine × Response F))
    (events : List (Event F)) (conn : ClientConn F) : Prop where
  consumed : answers.map Prod.fst <+: conn.requests.taken
  written : conn.lines.received <+: linesOf answers events
  exact : conn.lines.isOpen = true →
    conn.requests.taken = answers.map Prod.fst ∧ conn.lines.received = linesOf answers events
  plain : ∀ a ∈ answers.dropLast, Plain a.1
  reading : conn.mode = .reading → events = [] ∧ ∀ a ∈ answers, Plain a.1
  streaming : ∀ i, conn.mode = .streaming i →
    ∃ chan, bus.chans[i]? = some chan ∧ chan.taken = events
  upgraded : (∃ i, conn.mode = .streaming i) ∨ events ≠ [] →
    answers.getLast? = some (.ok .subscribe, .subscribed)

section Follow

variable {s : IpcServer F} {bus bus' : Bus (Event F)} {conn conn' : ClientConn F}
variable {answers : List (ClientLine × Response F)} {events : List (Event F)}

omit [SerdeJson F] in
theorem follows_new (bus : Bus (Event F)) : Follows bus [] [] (.new : ClientConn F) where
  consumed := List.nil_prefix
  written := List.nil_prefix
  exact _ := ⟨rfl, rfl⟩
  plain := by simp
  reading _ := ⟨rfl, by simp⟩
  streaming i hi := by cases hi
  upgraded h := by
    rcases h with ⟨i, hi⟩ | h
    · cases hi
    · exact absurd rfl h

omit [SerdeJson F] in
theorem Follows.client (h : Follows bus answers events conn)
    (htaken : conn'.requests.taken = conn.requests.taken) (hmode : conn'.mode = conn.mode)
    (hlines : conn'.lines.received <+: conn.lines.received)
    (hopen : conn'.lines.isOpen = true →
      conn.lines.isOpen = true ∧ conn'.lines.received = conn.lines.received) :
    Follows bus answers events conn' where
  consumed := htaken ▸ h.consumed
  written := hlines.trans h.written
  exact ho := by
    obtain ⟨ho', hsame⟩ := hopen ho
    obtain ⟨hconsumed, hwritten⟩ := h.exact ho'
    exact ⟨htaken.trans hconsumed, hsame.trans hwritten⟩
  plain := h.plain
  reading hr := h.reading (hmode ▸ hr)
  streaming i hi := h.streaming i (hmode ▸ hi)
  upgraded hu := h.upgraded (hmode ▸ hu)

omit [SerdeJson F] in
theorem Follows.others (h : Follows bus answers events conn)
    (hbus : ∀ i chan, conn.mode = .streaming i → bus.chans[i]? = some chan →
      ∃ chan', bus'.chans[i]? = some chan' ∧ chan'.taken = chan.taken) :
    Follows bus' answers events conn where
  consumed := h.consumed
  written := h.written
  exact := h.exact
  plain := h.plain
  reading := h.reading
  streaming i hi := by
    obtain ⟨chan, hchan, htaken⟩ := h.streaming i hi
    obtain ⟨chan', hchan', htaken'⟩ := hbus i chan hi hchan
    exact ⟨chan', hchan', htaken'.trans htaken⟩
  upgraded := h.upgraded

theorem mode_respond (s : IpcServer F) (line : ClientLine) :
    Plain line ∧ (s.respond o line).2.2 = .reading ∨
      line = .ok .stop ∧ (s.respond o line).2.2 = .closed ∨
      line = .ok .subscribe ∧ (s.respond o line).2 = (.subscribed, .streaming s.bus.chans.length) := by
  rcases line with message | request
  · exact .inl ⟨⟨nofun, nofun⟩, rfl⟩
  · cases request
    case stop => exact .inr (.inl ⟨rfl, rfl⟩)
    case subscribe => exact .inr (.inr ⟨rfl, rfl⟩)
    all_goals exact .inl ⟨⟨by simp, by simp⟩, rfl⟩

omit [SerdeJson F] in
theorem Follows.close (h : Follows bus answers events conn) (bus' : Bus (Event F))
    {requests : Channel ClientLine} (hconsumed : conn.requests.taken <+: requests.taken)
    (hopen : conn.lines.isOpen = true → requests.taken = conn.requests.taken) :
    Follows bus' answers events ⟨requests, conn.lines, .closed⟩ where
  consumed := h.consumed.trans hconsumed
  written := h.written
  exact ho := ⟨(hopen ho).trans (h.exact ho).1, (h.exact ho).2⟩
  plain := h.plain
  reading hr := by cases hr
  streaming i hi := by cases hi
  upgraded hu := by
    rcases hu with ⟨i, hi⟩ | hu
    · cases hi
    · exact h.upgraded (.inr hu)

/-- A line is answered. -/
theorem Follows.answer (h : Follows s.bus answers events conn) {line : ClientLine}
    {queue : List ClientLine} (hmode : conn.mode = .reading)
    (hqueue : conn.requests.queue = line :: queue) (hopen : conn.lines.isOpen = true) :
    Follows ((busMoves line).foldl Bus.step s.bus)
      (answers ++ [(line, (s.respond o line).2.1)]) events
      ⟨conn.requests.recv, conn.lines.push (.response (s.respond o line).2.1),
        (s.respond o line).2.2⟩ := by
  obtain ⟨hconsumed, hwritten⟩ := h.exact hopen
  obtain ⟨rfl, hplain⟩ := h.reading hmode
  have htaken := Channel.taken_recv hqueue
  have hexact : conn.requests.recv.taken =
      (answers ++ [(line, (s.respond o line).2.1)]).map Prod.fst := by
    simp [htaken, hconsumed]
  have hlines : (conn.lines.push (.response (s.respond o line).2.1)).received =
      linesOf (answers ++ [(line, (s.respond o line).2.1)]) [] := by
    simp [Channel.received_push hopen, hwritten, linesOf]
  refine ⟨⟨[], ?_⟩, ⟨[], ?_⟩, fun _ => ⟨hexact, hlines⟩, ?_, ?_, ?_, ?_⟩
  · simpa using hexact.symm
  · simpa using hlines
  · simpa using hplain
  · rintro hr
    refine ⟨rfl, List.forall_mem_append.mpr ⟨hplain, ?_⟩⟩
    rintro a ha
    cases List.mem_singleton.mp ha
    rcases mode_respond o s line with ⟨hline, -⟩ | ⟨-, hclosed⟩ | ⟨-, hstream⟩
    · exact hline
    · cases hclosed.symm.trans hr
    · rw [hstream] at hr
      cases hr
  · rintro i hi
    rcases mode_respond o s line with ⟨-, hread⟩ | ⟨-, hclosed⟩ | ⟨rfl, hstream⟩
    · cases hread.symm.trans hi
    · cases hclosed.symm.trans hi
    · rw [hstream] at hi
      cases hi
      exact ⟨.new, by simp [busMoves, Bus.step, Bus.subscribe], rfl⟩
  · rintro (⟨i, hi⟩ | hne)
    · rcases mode_respond o s line with ⟨-, hread⟩ | ⟨-, hclosed⟩ | ⟨rfl, hstream⟩
      · cases hread.symm.trans hi
      · cases hclosed.symm.trans hi
      · simp [hstream]
    · exact absurd rfl hne

omit [SerdeJson F] in
theorem Follows.pass (h : Follows bus answers events conn) {i : ℕ} {chan : Channel (Event F)}
    {ev : Event F} {queue : List (Event F)} (hmode : conn.mode = .streaming i)
    (hchan : bus.chans[i]? = some chan) (hqueue : chan.queue = ev :: queue)
    (hopen : conn.lines.isOpen = true) :
    Follows (bus.step (.recv i)) answers (events ++ [ev])
      ⟨conn.requests, conn.lines.push (.event ev), conn.mode⟩ := by
  obtain ⟨hconsumed, hwritten⟩ := h.exact hopen
  obtain ⟨chan', hchan', htaken⟩ := h.streaming i hmode
  cases hchan.symm.trans hchan'
  have hlines : (conn.lines.push (.event ev)).received = linesOf answers (events ++ [ev]) := by
    simp [Channel.received_push hopen, hwritten, linesOf]
  refine ⟨h.consumed, ⟨[], by simpa using hlines⟩, fun _ => ⟨hconsumed, hlines⟩, h.plain, ?_, ?_, ?_⟩
  · rintro hr
    cases hmode.symm.trans hr
  · rintro j hj
    cases hmode.symm.trans hj
    refine ⟨chan.recv, by simp [Bus.step, hchan], ?_⟩
    rw [Channel.taken_recv hqueue, htaken]
  · exact fun _ => h.upgraded (.inl ⟨i, hmode⟩)

theorem Follows.round (h : Follows s.bus answers events conn) {ms : List (Bus.Move (Event F))}
    {a : Option (ClientLine × Response F)} {e : Option (Event F)}
    (hround : Round o s conn conn' ms a e) :
    Follows (ms.foldl Bus.step s.bus) (answers ++ a.toList) (events ++ e.toList) conn' := by
  cases hround with
  | idle => simpa using h
  | ended hmode => simpa using h.close s.bus (List.prefix_refl _) fun _ => rfl
  | answer hmode hqueue hopen => simpa using h.answer o hmode hqueue hopen
  | lost ms hmode hqueue hclosed quiet =>
    have hprefix : conn.requests.taken <+: conn.requests.recv.taken :=
      Channel.taken_recv hqueue ▸ List.prefix_append _ _
    simpa using h.close _ hprefix fun ho => absurd (ho.symm.trans hclosed) (by decide)
  | pass hmode hchan hqueue hopen => simpa using h.pass hmode hchan hqueue hopen
  | left hmode hclosed => simpa using h.close _ (List.prefix_refl _) fun _ => rfl

theorem Round.quiet {ms : List (Bus.Move (Event F))} {a : Option (ClientLine × Response F)}
    {e : Option (Event F)} (h : Round o s conn conn' ms a e) :
    ms.filterMap Bus.Move.event? = [] := by
  cases h with
  | @answer line _ _ _ _ =>
    rcases line with message | request
    · rfl
    · cases request <;> rfl
  | lost ms _ _ _ hms =>
    refine List.filterMap_eq_nil_iff.mpr fun m hm => ?_
    rcases hms m hm with rfl | ⟨i, rfl⟩ <;> rfl
  | _ => rfl

theorem Round.own {ms : List (Bus.Move (Event F))} {a : Option (ClientLine × Response F)}
    {e : Option (Event F)} (h : Round o s conn conn' ms a e) {i : ℕ} (hi : .recv i ∈ ms) :
    conn.mode = .streaming i := by
  cases h with
  | @answer line _ _ _ _ =>
    rcases line with message | request
    · cases hi
    · cases request <;> simp [busMoves] at hi
  | lost ms _ _ _ hms => rcases hms _ hi with h | ⟨j, h⟩ <;> cases h
  | pass hmode _ _ _ =>
    cases List.mem_singleton.mp hi
    exact hmode
  | left hmode _ =>
    simp only [List.mem_cons, Bus.Move.recv.injEq, reduceCtorEq, List.not_mem_nil, or_false] at hi
    exact hi ▸ hmode
  | _ => cases hi

theorem Round.mode {ms : List (Bus.Move (Event F))} {a : Option (ClientLine × Response F)}
    {e : Option (Event F)} (h : Round o s conn conn' ms a e) {i : ℕ}
    (hi : conn'.mode = .streaming i) : conn.mode = .streaming i ∨ i = s.bus.chans.length := by
  cases h with
  | idle => exact .inl hi
  | @answer line _ _ _ _ =>
    rcases mode_respond o s line with ⟨-, hread⟩ | ⟨-, hclosed⟩ | ⟨-, hstream⟩
    · cases hread.symm.trans hi
    · cases hclosed.symm.trans hi
    · rw [hstream] at hi
      cases hi
      exact .inr rfl
  | pass _ _ _ _ => exact .inl hi
  | _ => cases hi

theorem Round.passed {ms : List (Bus.Move (Event F))} {a : Option (ClientLine × Response F)}
    {ev : Event F} (h : Round o s conn conn' ms a (some ev)) : ∃ i, conn'.mode = .streaming i := by
  cases h with
  | pass hmode _ _ _ => exact ⟨_, hmode⟩

end Follow

section Run

/-- What a connection is, by its logs; one that is not yet accepted has none. -/
def Session (s : IpcServer F) (c : ℕ) (answers : List (ClientLine × Response F))
    (events : List (Event F)) : Prop :=
  match s.conns[c]? with
  | some conn => Follows s.bus answers events conn
  | none => answers = [] ∧ events = []

/-- The handler of a connection streams a subscription. -/
def Streams (s : IpcServer F) (c i : ℕ) : Prop :=
  ∃ conn : ClientConn F, s.conns[c]? = some conn ∧ conn.mode = .streaming i

/-- No two handlers stream the same subscription. -/
def Apart (s : IpcServer F) : Prop := ∀ c c' i, s.Streams c i → s.Streams c' i → c = c'

variable {s : IpcServer F} {c : ℕ} {answers : List (ClientLine × Response F)}
variable {events : List (Event F)}

omit [SerdeJson F] in
theorem Session.modifyConn (h : Session s c answers events) (c' : ℕ)
    {f : ClientConn F → ClientConn F} (htaken : ∀ conn, (f conn).requests.taken = conn.requests.taken)
    (hmode : ∀ conn, (f conn).mode = conn.mode)
    (hlines : ∀ conn, (f conn).lines.received <+: conn.lines.received)
    (hopen : ∀ conn, (f conn).lines.isOpen = true →
      conn.lines.isOpen = true ∧ (f conn).lines.received = conn.lines.received) :
    Session (s.modifyConn c' f) c answers events := by
  unfold Session at h ⊢
  simp only [IpcServer.modifyConn, List.getElem?_modify]
  cases hc : s.conns[c]? with
  | none => simpa [hc] using h
  | some conn =>
    rw [hc] at h
    by_cases hcc : c' = c
    · simpa [hcc] using h.client (htaken conn) (hmode conn) (hlines conn) (hopen conn)
    · simpa [hcc] using h

omit [SerdeJson F] in
theorem Apart.of_streams (h : Apart s) {s' : IpcServer F} (c₀ : ℕ) {i₀ : ℕ}
    (hnew : ∀ c, ¬s.Streams c i₀)
    (hold : ∀ c i, s'.Streams c i → s.Streams c i ∨ c = c₀ ∧ i = i₀) : Apart s' := by
  rintro c c' i hc hc'
  rcases hold c i hc with hs | ⟨rfl, rfl⟩
  · rcases hold c' i hc' with hs' | ⟨rfl, rfl⟩
    · exact h c c' i hs hs'
    · exact absurd hs (hnew c)
  · rcases hold c' i hc' with hs' | ⟨rfl, -⟩
    · exact absurd hs' (hnew c')
    · rfl

omit [SerdeJson F] in
theorem streams_modifyConn {c' i : ℕ} {f : ClientConn F → ClientConn F}
    (hmode : ∀ conn, (f conn).mode = conn.mode) (h : (s.modifyConn c' f).Streams c i) :
    s.Streams c i := by
  obtain ⟨conn, hc, hi⟩ := h
  rw [IpcServer.modifyConn, List.getElem?_modify] at hc
  obtain ⟨old, hold, rfl⟩ := Option.map_eq_some_iff.mp hc
  refine ⟨old, hold, ?_⟩
  split_ifs at hi with hcc
  · exact (hmode old).symm.trans hi
  · exact hi

/-- What holds at every moment: the bus is a run of the bus, each connection follows its logs, and
what is passed on is a part of what was broadcast. -/
structure Faithful (ctx : ServerCtx F) (moves : List (IpcMove F)) : Prop where
  bus : ∃ ms, (run o ctx moves).bus = Bus.run ms ∧
    ms.filterMap Bus.Move.event? = broadcasts moves
  apart : Apart (run o ctx moves)
  sessions : ∀ c, Session (run o ctx moves) c (answered o ctx c moves) (passed o ctx c moves)
  events : ∀ c, (passed o ctx c moves).Sublist (broadcasts moves)

variable {ctx : ServerCtx F} {moves : List (IpcMove F)}

theorem faithful_nil : Faithful o ctx [] where
  bus := ⟨[], rfl, rfl⟩
  apart := by
    rintro c c' i ⟨conn, hc, -⟩ -
    cases hc
  sessions c := ⟨rfl, rfl⟩
  events c := List.nil_sublist _

theorem Faithful.known (h : Faithful o ctx moves) {i : ℕ} (hs : (run o ctx moves).Streams c i) :
    i < (run o ctx moves).bus.chans.length := by
  obtain ⟨conn, hc, hi⟩ := hs
  have hsession := h.sessions c
  rw [Session, hc] at hsession
  obtain ⟨chan, hchan, -⟩ := hsession.streaming i hi
  exact (List.getElem?_eq_some_iff.mp hchan).1

/-- A move after which the bus, the streams and the sessions are as they should be. -/
theorem Faithful.concat (h : Faithful o ctx moves) (m : IpcMove F) (ms : List (Bus.Move (Event F)))
    (hbus : ((run o ctx moves).step o m).bus = ms.foldl Bus.step (run o ctx moves).bus)
    (hquiet : ms.filterMap Bus.Move.event? = broadcasts [m])
    (hapart : Apart ((run o ctx moves).step o m))
    (hsession : ∀ c, Session ((run o ctx moves).step o m) c
      (answered o ctx c moves ++ ((run o ctx moves).answers? o c m).toList)
      (passed o ctx c moves ++ ((run o ctx moves).passes? c m).toList))
    (hpassed : ∀ c ev, (run o ctx moves).passes? c m = some ev →
      ∃ i, ((run o ctx moves).step o m).Streams c i) :
    Faithful o ctx (moves ++ [m]) := by
  have hrun : run o ctx (moves ++ [m]) = (run o ctx moves).step o m := List.foldl_concat ..
  have hanswered (c : ℕ) : answered o ctx c (moves ++ [m]) =
      answered o ctx c moves ++ ((run o ctx moves).answers? o c m).toList := logOf_concat ..
  have hpass (c : ℕ) : passed o ctx c (moves ++ [m]) =
      passed o ctx c moves ++ ((run o ctx moves).passes? c m).toList := logOf_concat ..
  have hsent : broadcasts (moves ++ [m]) = broadcasts moves ++ broadcasts [m] :=
    List.filterMap_append
  obtain ⟨ms₀, hbus₀, hms₀⟩ := h.bus
  have hnew : ((run o ctx moves).step o m).bus = Bus.run (ms₀ ++ ms) := by
    rw [hbus, hbus₀, Bus.run, Bus.run, List.foldl_append]
  have hevents : (ms₀ ++ ms).filterMap Bus.Move.event? = broadcasts (moves ++ [m]) := by
    rw [List.filterMap_append, hms₀, hquiet, hsent]
  constructor
  · exact ⟨ms₀ ++ ms, hrun ▸ hnew, hevents⟩
  · exact hrun ▸ hapart
  · intro c
    rw [hrun, hanswered, hpass]
    exact hsession c
  · intro c
    rw [hpass]
    cases he : (run o ctx moves).passes? c m with
    | none =>
      rw [Option.toList_none, List.append_nil, hsent]
      exact (h.events c).trans (List.sublist_append_left _ _)
    | some ev =>
      obtain ⟨i, conn, hc, hi⟩ := hpassed c ev he
      have hfollows := hsession c
      rw [Session, hc] at hfollows
      obtain ⟨chan, hchan, htaken⟩ := hfollows.streaming i hi
      rw [he] at htaken
      rw [hnew] at hchan
      rw [← htaken, ← hevents]
      exact Bus.taken_sublist hchan

/-- A move of a client. -/
theorem Faithful.client (h : Faithful o ctx moves) (m : IpcMove F) (c' : ℕ)
    {f : ClientConn F → ClientConn F}
    (hm : (run o ctx moves).step o m = (run o ctx moves).modifyConn c' f)
    (hquiet : broadcasts [m] = []) (hanswers : ∀ c, (run o ctx moves).answers? o c m = none)
    (hpasses : ∀ c, (run o ctx moves).passes? c m = none)
    (htaken : ∀ conn, (f conn).requests.taken = conn.requests.taken)
    (hmode : ∀ conn, (f conn).mode = conn.mode)
    (hlines : ∀ conn, (f conn).lines.received <+: conn.lines.received)
    (hopen : ∀ conn, (f conn).lines.isOpen = true →
      conn.lines.isOpen = true ∧ (f conn).lines.received = conn.lines.received) :
    Faithful o ctx (moves ++ [m]) := by
  refine h.concat o m [] (by rw [hm]; rfl) hquiet.symm ?_ ?_ ?_
  · rintro c d i hc hd
    rw [hm] at hc hd
    exact h.apart c d i (streams_modifyConn hmode hc) (streams_modifyConn hmode hd)
  · intro c
    simpa [hm, hanswers, hpasses] using (h.sessions c).modifyConn c' htaken hmode hlines hopen
  · rintro c ev hev
    cases (hpasses c).symm.trans hev

theorem Faithful.subscribed (h : Faithful o ctx moves) :
    Bus.Subscribed (run o ctx moves).bus := by
  obtain ⟨ms, hms, -⟩ := h.bus
  exact hms ▸ Bus.subscribed_run ms

omit [SerdeJson F] in
theorem Session.others (h : Session s c answers events) (hsub : Bus.Subscribed s.bus)
    (ms : List (Bus.Move (Event F))) (hms : ∀ i, s.Streams c i → .recv i ∉ ms) {s' : IpcServer F}
    (hbus : s'.bus = ms.foldl Bus.step s.bus) (hconn : s'.conns[c]? = s.conns[c]?) :
    Session s' c answers events := by
  unfold Session at h ⊢
  rw [hconn]
  cases hc : s.conns[c]? with
  | none => simpa [hc] using h
  | some conn =>
    rw [hc] at h
    refine Follows.others h fun i chan hi hchan => ?_
    rw [hbus]
    exact hsub.taken_steps (hms i ⟨conn, hc, hi⟩) hchan

theorem Faithful.serve (h : Faithful o ctx moves) (c' : ℕ) :
    Faithful o ctx (moves ++ [.serve c']) := by
  have hsub := h.subscribed
  have hother (c : ℕ) (hne : c' ≠ c) : (run o ctx moves).answers? o c (.serve c') = none ∧
      (run o ctx moves).passes? c (.serve c') = none := by
    simp [answers?, reads?, passes?, hne]
  cases hc : (run o ctx moves).conns[c']? with
  | none =>
    have hidle : (run o ctx moves).step o (.serve c') = run o ctx moves := by
      simp [step, IpcServer.serve, hc]
    have hlogs (c : ℕ) : (run o ctx moves).answers? o c (.serve c') = none ∧
        (run o ctx moves).passes? c (.serve c') = none := by
      by_cases hcc : c' = c
      · subst hcc
        simp [answers?, reads?, passes?, hc]
      · exact hother c hcc
    refine h.concat o _ [] (by rw [hidle]; rfl) rfl (by rw [hidle]; exact h.apart) ?_ ?_
    · intro c
      simpa [hidle, hlogs] using h.sessions c
    · rintro c ev hev
      cases (hlogs c).2.symm.trans hev
  | some conn =>
    obtain ⟨conn', ms, hround, hconns, hbus⟩ := serve_round o hc
    have hlt := (List.getElem?_eq_some_iff.mp hc).1
    have hself : ((run o ctx moves).step o (.serve c')).conns[c']? = some conn' := by
      rw [step, hconns, List.getElem?_set_self hlt]
    have hothers (c : ℕ) (hne : c' ≠ c) : ((run o ctx moves).step o (.serve c')).conns[c]? =
        (run o ctx moves).conns[c]? := by
      rw [step, hconns, List.getElem?_set_ne hne]
    refine h.concat o _ ms hbus hround.quiet ?_ ?_ ?_
    · refine h.apart.of_streams c' (fun c hs => absurd (h.known o hs) (Nat.lt_irrefl _)) ?_
      rintro c i ⟨d, hd, hi⟩
      by_cases hcc : c' = c
      · subst hcc
        cases hself.symm.trans hd
        rcases hround.mode o hi with hold | hnew
        · exact .inl ⟨conn, hc, hold⟩
        · exact .inr ⟨rfl, hnew⟩
      · exact .inl ⟨d, (hothers c hcc).symm.trans hd, hi⟩
    · intro c
      by_cases hcc : c' = c
      · subst hcc
        have hsession := h.sessions c'
        unfold Session at hsession ⊢
        rw [hc] at hsession
        rw [hself]
        exact hbus ▸ hsession.round o hround
      · obtain ⟨hanswers, hpasses⟩ := hother c hcc
        rw [hanswers, hpasses, Option.toList_none, Option.toList_none, List.append_nil,
          List.append_nil]
        refine (h.sessions c).others hsub ms (fun i hs hi => ?_) hbus (hothers c hcc)
        exact hcc (h.apart c' c i ⟨conn, hc, hround.own o hi⟩ hs)
    · rintro c ev hev
      by_cases hcc : c' = c
      · subst hcc
        rw [hev] at hround
        obtain ⟨i, hi⟩ := hround.passed o
        exact ⟨i, conn', hself, hi⟩
      · cases (hother c hcc).2.symm.trans hev

theorem Faithful.accept (h : Faithful o ctx moves) : Faithful o ctx (moves ++ [.accept]) := by
  have hstep : (run o ctx moves).step o .accept = if (run o ctx moves).stop then run o ctx moves
      else { run o ctx moves with conns := (run o ctx moves).conns ++ [.new] } := rfl
  have hconns (c : ℕ) (conn : ClientConn F)
      (hc : ((run o ctx moves).step o .accept).conns[c]? = some conn) :
      (run o ctx moves).conns[c]? = some conn ∨
        (run o ctx moves).conns[c]? = none ∧ conn = .new := by
    rw [hstep] at hc
    split_ifs at hc
    · exact .inl hc
    · rw [List.getElem?_append] at hc
      split_ifs at hc with hlt
      · exact .inl hc
      · refine .inr ⟨List.getElem?_eq_none (Nat.le_of_not_lt hlt), ?_⟩
        exact (List.mem_singleton.mp (List.mem_of_getElem? hc))
  have hbus : ((run o ctx moves).step o .accept).bus = (run o ctx moves).bus := by
    rw [hstep]
    split <;> rfl
  refine h.concat o _ [] hbus rfl ?_ ?_ (fun _ _ hev => by cases hev)
  · rintro c d i ⟨conn, hc, hi⟩ ⟨conn', hd, hi'⟩
    rcases hconns c conn hc with hold | ⟨-, rfl⟩
    · rcases hconns d conn' hd with hold' | ⟨-, rfl⟩
      · exact h.apart c d i ⟨conn, hold, hi⟩ ⟨conn', hold', hi'⟩
      · cases hi'
    · cases hi
  · intro c
    have hsession := h.sessions c
    have hnone : (run o ctx moves).answers? o c .accept = none := rfl
    have hnone' : (run o ctx moves).passes? c .accept = none := rfl
    rw [hnone, hnone', Option.toList_none, Option.toList_none, List.append_nil, List.append_nil]
    unfold Session at hsession ⊢
    rw [hbus]
    cases hc : ((run o ctx moves).step o .accept).conns[c]? with
    | none =>
      have hold : (run o ctx moves).conns[c]? = none := by
        rw [hstep] at hc
        split_ifs at hc
        · exact hc
        · rw [List.getElem?_eq_none_iff, List.length_append] at hc
          exact List.getElem?_eq_none (by omega)
      simpa [hold] using hsession
    | some conn =>
      rcases hconns c conn hc with hold | ⟨hnew, rfl⟩
      · simpa [hold] using hsession
      · rw [hnew] at hsession
        rw [hsession.1, hsession.2]
        exact follows_new _

theorem faithful_run (moves : List (IpcMove F)) : Faithful o ctx moves := by
  induction moves using List.reverseRecOn with
  | nil => exact faithful_nil o
  | append_singleton moves m ih =>
    cases m with
    | accept => exact ih.accept o
    | send c line =>
      refine ih.client o _ c rfl rfl (fun _ => rfl) (fun _ => rfl) ?_ (fun _ => rfl) ?_ ?_
      · exact fun conn => Channel.taken_push line conn.requests
      · exact fun _ => List.prefix_refl _
      · exact fun _ ho => ⟨ho, rfl⟩
    | serve c => exact ih.serve o c
    | receive c =>
      refine ih.client o _ c rfl rfl (fun _ => rfl) (fun _ => rfl) (fun _ => rfl) (fun _ => rfl) ?_ ?_
      · intro conn
        simp
      · exact fun conn ho => ⟨by simpa using ho, Channel.received_recv conn.lines⟩
    | hangup c =>
      refine ih.client o _ c rfl rfl (fun _ => rfl) (fun _ => rfl) (fun _ => rfl) (fun _ => rfl) ?_ ?_
      · intro conn
        simp [Channel.hangup, Channel.received]
      · exact fun _ ho => by cases ho
    | change ctx' =>
      refine ih.concat o _ [] rfl rfl ih.apart (fun c => ?_) fun _ _ hev => by cases hev
      have hsame : Session ((run o ctx moves).step o (.change ctx')) c (answered o ctx c moves)
          (passed o ctx c moves) := ih.sessions c
      simpa [answers?, reads?, passes?] using hsame
    | broadcast ev =>
      refine ih.concat o _ [.broadcast ev] rfl rfl ih.apart (fun c => ?_) fun _ _ hev => by cases hev
      have hother : Session ((run o ctx moves).step o (.broadcast ev)) c (answered o ctx c moves)
          (passed o ctx c moves) :=
        (ih.sessions c).others (ih.subscribed o) [.broadcast ev]
          (fun i _ hi => by cases List.mem_singleton.mp hi) rfl rfl
      simpa [answers?, reads?, passes?] using hother

/-- The answer to a line was given by the server as it was at one moment, when the line had been sent
and the client had not read the answer. -/
def AnsweredAt (ctx : ServerCtx F) (moves : List (IpcMove F)) (c j : ℕ) (line : ClientLine)
    (r : Response F) : Prop :=
  ∃ (t : ℕ) (conn : ClientConn F), (run o ctx (moves.take t)).conns[c]? = some conn ∧
    conn.requests.received[j]? = some line ∧ conn.lines.taken.length ≤ j ∧
      r = ((run o ctx (moves.take t)).respond o line).2.1

theorem answeredAt_of_answered {j : ℕ} {line : ClientLine} {r : Response F}
    (h : (answered o ctx c moves)[j]? = some (line, r)) : AnsweredAt o ctx moves c j line r := by
  obtain ⟨t, m, hm, hentry, hlen⟩ := exists_moment h
  obtain ⟨line', hreads, hr⟩ := Option.map_eq_some_iff.mp hentry
  cases hr
  cases m with
  | serve c' =>
    simp only [reads?] at hreads
    split_ifs at hreads with hcc
    obtain ⟨conn, hc, hif⟩ := Option.bind_eq_some_iff.mp hreads
    split_ifs at hif with hready
    obtain ⟨hmode, hopen⟩ := hready
    have hfollows := (faithful_run o (moves.take t) : Faithful o ctx _).sessions c
    rw [Session, show (run o ctx (moves.take t)).conns[c]? = some conn from hc] at hfollows
    obtain ⟨htaken, hreceived⟩ := hfollows.exact hopen
    obtain ⟨hevents, -⟩ := hfollows.reading hmode
    have hlen' : (answered o ctx c (moves.take t)).length = j := hlen
    refine ⟨t, conn, hc, ?_, ?_, rfl⟩
    · rw [Channel.received, htaken, List.getElem?_append_right (by simp [hlen'])]
      simpa [hlen', List.head?_eq_getElem?] using hif
    · have hle := congrArg List.length hreceived
      simp only [Channel.received, List.length_append, linesOf, hevents, List.map_nil,
        List.append_nil, List.length_map, hlen'] at hle
      omega
  | _ => cases hreads

/-- What a client reads are the answers to its lines, in order, each given between the line and the
reading, and then, only after a subscription, events in the order in which they were broadcast. No
line is answered after a subscription or a stop. -/
structure Linearizable (ctx : ServerCtx F) (moves : List (IpcMove F)) (c : ℕ) (conn : ClientConn F) :
    Prop where
  taken : conn.lines.taken <+: linesOf (answered o ctx c moves) (passed o ctx c moves)
  received : conn.lines.isOpen = true →
    conn.lines.received = linesOf (answered o ctx c moves) (passed o ctx c moves)
  order : (answered o ctx c moves).map Prod.fst <+: conn.requests.received
  answers : ∀ (j : ℕ) (line : ClientLine) (r : Response F),
    (answered o ctx c moves)[j]? = some (line, r) → AnsweredAt o ctx moves c j line r
  plain : ∀ a ∈ (answered o ctx c moves).dropLast, Plain a.1
  upgraded : passed o ctx c moves ≠ [] →
    (answered o ctx c moves).getLast? = some (.ok .subscribe, .subscribed)
  events : (passed o ctx c moves).Sublist (broadcasts moves)

/-- Every session is linearizable, however the clients, the handlers and the worker move. -/
theorem session_linearizable (ctx : ServerCtx F) (moves : List (IpcMove F)) (c : ℕ)
    (conn : ClientConn F) (hc : (run o ctx moves).conns[c]? = some conn) :
    Linearizable o ctx moves c conn := by
  have hfaithful : Faithful o ctx moves := faithful_run o moves
  have h := hfaithful.sessions c
  rw [Session, hc] at h
  constructor
  · have htaken : conn.lines.taken <+: conn.lines.received := List.prefix_append _ _
    exact htaken.trans h.written
  · exact fun ho => (h.exact ho).2
  · have hreceived : conn.requests.taken <+: conn.requests.received := List.prefix_append _ _
    exact h.consumed.trans hreceived
  · exact fun _ _ _ => answeredAt_of_answered o
  · exact h.plain
  · exact fun hne => h.upgraded (.inr hne)
  · exact hfaithful.events c

/-- A context with a process that was seen once, of which no statement fails. -/
def sampleCtx : ServerCtx ℚ where
  store := { (Store.openNew : Store ℚ) with processes := [⟨1, "/bin/a", "a", 5, 9, none⟩] }
  live := ∅
  interface := "en0"
  pid := 7
  uptimeSecs := 3
  version := "0.1.0"
  failing _ := none
  errorText := ""

/-- A client that lists the processes, sends a line that is no request, and subscribes. -/
def sampleMoves : List (IpcMove ℚ) :=
  [.accept, .send 0 (.ok .listProcesses), .send 0 (.error "expected value"), .serve 0,
    .change sampleCtx, .serve 0, .receive 0, .send 0 (.ok .subscribe), .broadcast (.heartbeat 1),
    .serve 0, .broadcast (.heartbeat 2), .serve 0, .receive 0, .receive 0, .receive 0]

theorem session_linearizable_sample : ∃ _ : SerdeJson ℚ,
    ∃ conn, (run .stable sampleCtx sampleMoves).conns[0]? = some conn ∧
      conn.lines.taken.length = 4 ∧ Linearizable .stable sampleCtx sampleMoves 0 conn :=
  let json : SerdeJson ℚ := ⟨fun _ => "", fun _ => none⟩
  ⟨json, _, rfl, rfl, session_linearizable .stable sampleCtx sampleMoves 0 _ rfl⟩

end Run

end IpcServer

end Pktscope
