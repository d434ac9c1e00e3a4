import Mathlib.Logic.Function.Basic
import Cascade.Net.Framing

/-!
# Connections of a server

The model of `net/tcp_server.hpp`. The server accepts connections, takes frames from what arrives
on them and gives them to a callback, which may send to any connection. A send that fails drops its
connection, also the one whose frames are being taken.

What the kernel answers is given with each call. The callback is a function of what has been
called back so far, so that it may do anything at each call. What it may not do is add connections.

The callbacks of a connection come in order (`TcpServer.callbacks_in_order`). But the loop that
takes the frames goes on with the connection that the callback may have dropped, unless the callback
throws (`TcpServer.lifecycle_iff`).
-/

namespace Net

/-- What the kernel answers to a call of `send` that the server makes: how many bytes it would take,
`EAGAIN`, or another error. -/
inductive TcpServer.SendAnswer where
  | sent (n : ℕ)
  | again
  | failed

/-- What it answers to a call of `recv`. -/
inductive TcpServer.RecvAnswer where
  | data (chunk : List UInt8)
  | closed
  | again
  | interrupted
  | failed

/-- A call of `send`, with what the kernel answers. It takes the rest when these are used up. -/
structure TcpServer.SendCall where
  id : ℤ
  payload : List UInt8
  len : UInt32
  answers : List TcpServer.SendAnswer

/-- What the callback does with a message: the messages that it sends, and whether it throws. -/
structure TcpServer.Handling where
  sends : List TcpServer.SendCall
  throws : Bool

/-- A call of one of the callbacks. -/
inductive TcpServer.Callback where
  | onConnect (fd : ℤ) (peerAddr : String)
  | onMessage (fd : ℤ) (payload : List UInt8)
  | onDisconnect (fd : ℤ)
deriving DecidableEq

/-- The server: the bytes that each connection has received and not used, what has been called
back, and whether something was done that is undefined. -/
structure TcpServer where
  connections : ℤ → Option (List UInt8)
  callbacks : List TcpServer.Callback
  undefined : Bool

namespace TcpServer

def new : TcpServer := ⟨fun _ => none, [], false⟩

def setConnection (s : TcpServer) (fd : ℤ) (connection : Option (List UInt8)) : TcpServer :=
  { s with connections := Function.update s.connections fd connection }

def callBack (s : TcpServer) (callback : Callback) : TcpServer :=
  { s with callbacks := s.callbacks ++ [callback] }

def disconnect (s : TcpServer) (fd : ℤ) : TcpServer :=
  match s.connections fd with
  | none => s
  | some _ => (s.setConnection fd none).callBack (.onDisconnect fd)

/-- The loop of `send`: whether all bytes of the frame were taken. -/
def sendLoop (size : ℕ) : List SendAnswer → ℕ → Bool
  | answers, sent =>
      if sent < size then
        match answers with
        | [] => true
        | .again :: answers => sendLoop size answers sent
        | .failed :: _ => false
        | .sent n :: answers => sendLoop size answers (sent + min n (size - sent))
      else true

/-- A send to a connection fails. A frame that is too long is refused before that, with an
exception. -/
def SendCall.fails (call : SendCall) : Bool :=
  match encodeFrameBytes call.payload call.len with
  | .error _ => false
  | .ok frame => !sendLoop frame.length call.answers 0

def send (s : TcpServer) (call : SendCall) : TcpServer :=
  match s.connections call.id with
  | none => s
  | some _ => if call.fails then s.disconnect call.id else s

/-- Whether `handle_readable` goes on to the next call of `recv`. -/
inductive Flow where
  | goOn
  | done

/-- The loop that takes frames from a connection. Each one is shorter than what is left by at least
its length, which bounds the number of rounds. -/
def extractLoop (handler : List Callback → Handling) (fd : ℤ) :
    ℕ → TcpServer → TcpServer × Flow
  | 0, s => (s, .goOn)
  | fuel + 1, s =>
      match s.connections fd with
      -- The iterator no longer points to a connection.
      | none => ({ s with undefined := true }, .done)
      | some buffer =>
          match tryExtract buffer with
          | .error _ => (s.disconnect fd, .done)
          | .ok none => (s, .goOn)
          | .ok (some (payload, rest)) =>
              let s := (s.setConnection fd (some rest)).callBack (.onMessage fd payload)
              let handling := handler s.callbacks
              let s := handling.sends.foldl send s
              if handling.throws then (s.disconnect fd, .done)
              else extractLoop handler fd fuel s

/-- The loop of `handle_readable`. When the answers are used up, there is nothing to read. -/
def recvLoop (handler : List Callback → Handling) (fd : ℤ) :
    List RecvAnswer → TcpServer → TcpServer
  | [], s => s
  | .data chunk :: answers, s =>
      match s.connections fd with
      | none => s
      | some buffer =>
          let buffer := buffer ++ chunk
          match extractLoop handler fd (buffer.length + 1) (s.setConnection fd (some buffer)) with
          | (s, .goOn) => recvLoop handler fd answers s
          | (s, .done) => s
  | .closed :: _, s => s.disconnect fd
  | .again :: _, s => s
  | .interrupted :: answers, s => recvLoop handler fd answers s
  | .failed :: _, s => s.disconnect fd

def handleReadable (handler : List Callback → Handling) (s : TcpServer) (fd : ℤ)
    (errorOrHangup : Bool) (answers : List RecvAnswer) : TcpServer :=
  if errorOrHangup then s.disconnect fd else recvLoop handler fd answers s

/-- What happens to a server. -/
inductive Event where
  | accepted (fd : ℤ) (peerAddr : String)
  | ready (fd : ℤ) (errorOrHangup : Bool) (answers : List RecvAnswer)
  | sent (call : SendCall)

/-- One event. A descriptor that is accepted is not in use, and the loop calls back for registered
ones only. Nothing is said of a server after something undefined. -/
def step (handler : List Callback → Handling) (s : TcpServer) (event : Event) : TcpServer :=
  if s.undefined then s
  else
    match event with
    | .accepted fd peerAddr =>
        match s.connections fd with
        | some _ => s
        | none => (s.setConnection fd (some [])).callBack (.onConnect fd peerAddr)
    | .ready fd errorOrHangup answers =>
        match s.connections fd with
        | none => s
        | some _ => s.handleReadable handler fd errorOrHangup answers
    | .sent call => s.send call

def run (handler : List Callback → Handling) (events : List Event) : TcpServer :=
  events.foldl (step handler) new

/-! ### What the work on a connection keeps -/

variable {fd : ℤ} {I : TcpServer → Prop} {s : TcpServer}

/-- Sending does nothing but drop connections. -/
theorem keeps_send (hdisconnect : ∀ s fd, I s → I (s.disconnect fd)) (hs : I s)
    (call : SendCall) :
  I (s.send call)
  := by
  rw [send]
  split
  · exact hs
  · split
    · exact hdisconnect s call.id hs
    · exact hs

theorem keeps_sends (hdisconnect : ∀ s fd, I s → I (s.disconnect fd)) (hs : I s)
    (calls : List SendCall) :
  I (calls.foldl send s)
  := by
  induction calls generalizing s with
  | nil => exact hs
  | cons call calls ih => exact ih (keeps_send hdisconnect hs call)

/-- What is kept when something happens on a connection: bytes arrive, a message is called back, or
any connection is dropped. -/
structure Steady (fd : ℤ) (I : TcpServer → Prop) : Prop where
  disconnect : ∀ s fd', I s → I (s.disconnect fd')
  received : ∀ s buffer, s.connections fd = some buffer →
    ∀ buffer', I s → I (s.setConnection fd (some buffer'))
  message : ∀ s buffer, s.connections fd = some buffer → ∀ payload rest, I s →
    I ((s.setConnection fd (some rest)).callBack (.onMessage fd payload))
  access : ∀ s, I s → I { s with undefined := true }

namespace Steady

theorem extractLoop (h : Steady fd I) (hs : I s) (handler : List Callback → Handling)
    (fuel : ℕ) :
  I (extractLoop handler fd fuel s).1
  := by
  induction fuel generalizing s with
  | zero => exact hs
  | succ fuel ih =>
      rw [TcpServer.extractLoop]
      split
      · exact h.access s hs
      · next buffer hfd =>
          split
          · exact h.disconnect s fd hs
          · exact hs
          · next payload rest _ =>
              have hsends := keeps_sends h.disconnect (h.message s buffer hfd payload rest hs)
              dsimp only
              split
              · exact h.disconnect _ fd (hsends _)
              · exact ih (hsends _)

theorem recvLoop (h : Steady fd I) (hs : I s) (handler : List Callback → Handling)
    (answers : List RecvAnswer) :
  I (recvLoop handler fd answers s)
  := by
  induction answers generalizing s with
  | nil => exact hs
  | cons answer answers ih =>
      cases answer with
      | data chunk =>
          rw [TcpServer.recvLoop]
          split
          · exact hs
          · next buffer hfd =>
              have hextract := h.extractLoop (h.received s buffer hfd (buffer ++ chunk) hs) handler
                ((buffer ++ chunk).length + 1)
              dsimp only
              split
              · next heq =>
                  rw [heq] at hextract
                  exact ih hextract
              · next heq =>
                  rw [heq] at hextract
                  exact hextract
      | closed => exact h.disconnect s fd hs
      | again => exact hs
      | interrupted => exact ih hs
      | failed => exact h.disconnect s fd hs

end Steady

/-! ### The order of the callbacks -/

/-- How a callback changes whether a descriptor has a connection, if the callback may come. -/
def Callback.advance (fd : ℤ) (connected : Bool) : Callback → Option Bool
  | onConnect fd' _ =>
      if fd' = fd then if connected then none else some true else some connected
  | onMessage fd' _ =>
      if fd' = fd then if connected then some true else none else some connected
  | onDisconnect fd' =>
      if fd' = fd then if connected then some false else none else some connected

/-- Whether a descriptor has a connection after some callbacks, if they are in order: each
connection begins with `on_connect`, then there are messages, and then it ends with `on_disconnect`,
if it ends. -/
def lifecycle (fd : ℤ) (callbacks : List Callback) : Option Bool :=
  callbacks.foldlM (Callback.advance fd) false

/-- The callbacks are in order, and the connections are those that they say. -/
def InOrder (s : TcpServer) : Prop :=
  ∀ fd, lifecycle fd s.callbacks = some (s.connections fd).isSome

section

variable {s : TcpServer}

variable {fd : ℤ}

theorem lifecycle_concat {callbacks : List Callback} {connected : Bool}
    (h : lifecycle fd callbacks = some connected) (callback : Callback) :
  lifecycle fd (callbacks ++ [callback]) = callback.advance fd connected
  := by
  rw [lifecycle, List.foldlM_append, ← lifecycle, h]
  simp

theorem setConnection_self (fd : ℤ) (connection : Option (List UInt8)) :
  (s.setConnection fd connection).connections fd = connection
  := Function.update_self ..

theorem setConnection_of_ne {fd fd' : ℤ} (h : fd' ≠ fd) (connection : Option (List UInt8)) :
  (s.setConnection fd connection).connections fd' = s.connections fd'
  := Function.update_of_ne h ..

variable {buffer : List UInt8}

namespace InOrder

theorem new :
  InOrder new
  := fun _ => rfl

/-- A callback for a descriptor, with a new state of its connection. -/
theorem callBack (h : InOrder s) {connection : Option (List UInt8)} {callback : Callback}
    (hself : callback.advance fd (s.connections fd).isSome = some connection.isSome)
    (hothers : ∀ fd' ≠ fd, ∀ connected, callback.advance fd' connected = some connected) :
  InOrder ((s.setConnection fd connection).callBack callback)
  := by
  intro fd'
  rw [TcpServer.callBack]
  apply (lifecycle_concat (h fd') callback).trans
  by_cases hfd : fd' = fd
  · subst hfd
    rw [hself, setConnection_self]
  · rw [hothers fd' hfd, setConnection_of_ne hfd]

/-- New bytes of a connection. -/
theorem received (h : InOrder s) (hfd : s.connections fd = some buffer) (buffer' : List UInt8) :
  InOrder (s.setConnection fd (some buffer'))
  := by
  intro fd'
  apply (h fd').trans
  by_cases heq : fd' = fd
  · subst heq
    rw [setConnection_self, hfd]
    rfl
  · rw [setConnection_of_ne heq]

theorem accepted (h : InOrder s) (hfd : s.connections fd = none) (peerAddr : String) :
  InOrder ((s.setConnection fd (some [])).callBack (.onConnect fd peerAddr))
  := by
  apply h.callBack
  · simp [Callback.advance, hfd]
  · intro fd' hne connected
    simp [Callback.advance, Ne.symm hne]

theorem message (h : InOrder s) (hfd : s.connections fd = some buffer) (payload rest : List UInt8) :
  InOrder ((s.setConnection fd (some rest)).callBack (.onMessage fd payload))
  := by
  apply h.callBack
  · simp [Callback.advance, hfd]
  · intro fd' hne connected
    simp [Callback.advance, Ne.symm hne]

theorem disconnect (h : InOrder s) (fd : ℤ) :
  InOrder (s.disconnect fd)
  := by
  rw [TcpServer.disconnect]
  split
  · exact h
  · next hfd =>
      apply h.callBack
      · simp [Callback.advance, hfd]
      · intro fd' hne connected
        simp [Callback.advance, Ne.symm hne]

theorem steady (fd : ℤ) :
  Steady fd InOrder
  := ⟨fun _ fd' h => h.disconnect fd', fun _ _ hfd buffer' h => h.received hfd buffer',
    fun _ _ hfd payload rest h => h.message hfd payload rest, fun _ h => h⟩

theorem step (h : InOrder s) (handler : List Callback → Handling) (event : Event) :
  InOrder (s.step handler event)
  := by
  unfold TcpServer.step
  split
  · exact h
  · cases event with
    | accepted fd peerAddr =>
        dsimp only
        split
        · exact h
        · next hfd => exact h.accepted hfd peerAddr
    | ready fd errorOrHangup answers =>
        dsimp only
        split
        · exact h
        · rw [handleReadable]
          split
          · exact h.disconnect fd
          · exact (steady fd).recvLoop h handler answers
    | sent call => exact keeps_send (fun _ fd h => h.disconnect fd) h call

end InOrder

theorem callbacks_in_order (handler : List Callback → Handling) (events : List Event) :
  InOrder (run handler events)
  := by
  induction events using List.reverseRecOn with
  | nil => exact InOrder.new
  | append_singleton events event ih =>
      rw [run, List.foldl_append]
      exact ih.step handler event

/-! ### Access to dropped connections -/

/-- The callback throws, or no send to the connection fails. -/
def Handling.Keeps (handling : Handling) (fd : ℤ) : Prop :=
  handling.throws = true ∨ ∀ call ∈ handling.sends, call.id = fd → call.fails = false

/-- The callback has not dropped a connection on whose message it was called, or thrown then. -/
def Respectful (handler : List Callback → Handling) (callbacks : List Callback) : Prop :=
  ∀ before fd payload, before ++ [Callback.onMessage fd payload] <+: callbacks →
    (handler (before ++ [Callback.onMessage fd payload])).Keeps fd

variable {handler : List Callback → Handling}

theorem respectful_message {callbacks : List Callback} {payload : List UInt8} :
  Respectful handler (callbacks ++ [Callback.onMessage fd payload]) ↔ Respectful handler callbacks
    ∧ (handler (callbacks ++ [Callback.onMessage fd payload])).Keeps fd
  := by
  constructor
  · intro h
    refine ⟨?_, h _ _ _ (List.prefix_refl _)⟩
    intro before fd' payload' hbefore
    exact h _ _ _ (hbefore.trans (List.prefix_append ..))
  · rintro ⟨h, hlast⟩ before fd' payload' hbefore
    rcases List.prefix_concat_iff.mp hbefore with heq | hbefore
    · rw [heq]
      obtain ⟨-, heq⟩ := List.append_inj' heq rfl
      obtain ⟨rfl, rfl⟩ := Callback.onMessage.inj (List.singleton_inj.mp heq)
      exact hlast
    · exact h _ _ _ hbefore

theorem respectful_concat {callbacks : List Callback} {callback : Callback}
    (h : ∀ fd payload, callback ≠ .onMessage fd payload) :
  Respectful handler (callbacks ++ [callback]) ↔ Respectful handler callbacks
  := by
  constructor
  · intro hall before fd' payload' hbefore
    exact hall _ _ _ (hbefore.trans (List.prefix_append ..))
  · intro hall before fd' payload' hbefore
    rcases List.prefix_concat_iff.mp hbefore with heq | hbefore
    · obtain ⟨-, heq⟩ := List.append_inj' heq rfl
      exact absurd (List.singleton_inj.mp heq).symm (h fd' payload')
    · exact hall _ _ _ hbefore

/-- Nothing undefined happens, and no message is called back. -/
structure Quiet (s s' : TcpServer) : Prop where
  undefined : s'.undefined = s.undefined
  respectful : ∀ handler, Respectful handler s'.callbacks ↔ Respectful handler s.callbacks

theorem Quiet.refl (s : TcpServer) :
  Quiet s s
  := ⟨rfl, fun _ => Iff.rfl⟩

theorem Quiet.trans {s s' s'' : TcpServer} (h : Quiet s s') (h' : Quiet s' s'') :
  Quiet s s''
  := ⟨h'.undefined.trans h.undefined,
    fun handler => (h'.respectful handler).trans (h.respectful handler)⟩

theorem quiet_disconnect (s : TcpServer) (fd : ℤ) :
  Quiet s (s.disconnect fd)
  := by
  rw [disconnect]
  split
  · exact .refl s
  · exact ⟨rfl, fun handler => respectful_concat (by rintro _ _ ⟨⟩)⟩

theorem quiet_send (s : TcpServer) (call : SendCall) :
  Quiet s (s.send call)
  := by
  rw [send]
  split
  · exact .refl s
  · split
    · exact quiet_disconnect ..
    · exact .refl s

theorem quiet_sends (s : TcpServer) (calls : List SendCall) :
  Quiet s (calls.foldl send s)
  := by
  induction calls generalizing s with
  | nil => exact .refl s
  | cons call calls ih => exact (quiet_send s call).trans (ih _)

theorem disconnect_of_ne {fd fd' : ℤ} (h : fd' ≠ fd) :
  (s.disconnect fd).connections fd' = s.connections fd'
  := by
  rw [disconnect]
  split
  · rfl
  · exact setConnection_of_ne h none

theorem disconnect_self (fd : ℤ) :
  (s.disconnect fd).connections fd = none
  := by
  rw [disconnect]
  split
  · next hfd => exact hfd
  · exact setConnection_self fd none

/-- A send drops its connection if it fails, and no other one. -/
theorem send_connections (call : SendCall) (fd : ℤ) :
  (s.send call).connections fd
    = if call.id = fd ∧ call.fails = true then none else s.connections fd
  := by
  by_cases hid : call.id = fd
  · subst hid
    rw [send]
    split
    · next hnone => rw [hnone, ite_self]
    · cases call.fails with
      | true => exact (disconnect_self _).trans (if_pos ⟨rfl, rfl⟩).symm
      | false => exact (if_neg (by simp)).symm
  · rw [if_neg fun h => hid h.1, send]
    split
    · rfl
    · split
      · exact disconnect_of_ne (Ne.symm hid)
      · rfl

/-- If no send to a connection fails, it stays. -/
theorem sends_kept {calls : List SendCall} (h : ∀ call ∈ calls, call.id = fd → call.fails = false) :
  (calls.foldl send s).connections fd = s.connections fd
  := by
  induction calls generalizing s with
  | nil => rfl
  | cons call calls ih =>
      rw [List.forall_mem_cons] at h
      rw [List.foldl_cons, ih h.2, send_connections, if_neg]
      rintro ⟨hid, hfails⟩
      rw [h.1 hid] at hfails
      cases hfails

/-- Otherwise it is gone. -/
theorem sends_dropped {calls : List SendCall}
    (h : ∃ call ∈ calls, call.id = fd ∧ call.fails = true) :
  (calls.foldl send s).connections fd = none
  := by
  -- A connection that is gone is not there after any other sends.
  have hgone : ∀ (calls : List SendCall) (s : TcpServer), s.connections fd = none →
      (calls.foldl send s).connections fd = none := by
    intro calls
    induction calls with
    | nil => exact fun s hs => hs
    | cons call calls ih =>
        intro s hs
        apply ih
        rw [send_connections, hs, ite_self]
  obtain ⟨call, hmem, hdrops⟩ := h
  obtain ⟨before, after, rfl⟩ := List.append_of_mem hmem
  rw [List.foldl_append, List.foldl_cons]
  apply hgone
  rw [send_connections, if_pos hdrops]

theorem of_sends {calls : List SendCall} (h : (calls.foldl send s).connections fd = some buffer) :
  s.connections fd = some buffer
  := by
  by_cases hdrops : ∃ call ∈ calls, call.id = fd ∧ call.fails = true
  · rw [sends_dropped hdrops] at h
    cases h
  · rwa [sends_kept (by simpa using hdrops)] at h

/-- If the connection is gone, the loop accesses it all the same. -/
theorem extractLoop_dropped {fuel : ℕ} (hfd : s.connections fd = none) (hfuel : 0 < fuel) :
  extractLoop handler fd fuel s = ({ s with undefined := true }, .done)
  := by
  obtain ⟨fuel, rfl⟩ := Nat.exists_eq_add_of_lt hfuel
  rw [extractLoop, hfd]

/-- As long as nothing undefined has happened, the callback has been respectful, and it has not
been when something has. -/
def Sound (handler : List Callback → Handling) (s : TcpServer) : Prop :=
  s.undefined = false ↔ Respectful handler s.callbacks

theorem Sound.quiet {s s' : TcpServer} (h : Sound handler s) (hquiet : Quiet s s') :
  Sound handler s'
  := by
  rw [Sound, hquiet.undefined, hquiet.respectful]
  exact h

/-- A message is called back, and the callback sends. -/
theorem Sound.message {s s₁ : TcpServer} (h : Sound handler s) (hdefined : s.undefined = false)
    {payload rest : List UInt8}
    (hs₁ : s₁ = (s.setConnection fd (some rest)).callBack (.onMessage fd payload)) :
  ((handler s₁.callbacks).sends.foldl send s₁).undefined = false
    ∧ (Respectful handler ((handler s₁.callbacks).sends.foldl send s₁).callbacks
      ↔ (handler s₁.callbacks).Keeps fd)
  := by
  have hquiet := quiet_sends s₁ (handler s₁.callbacks).sends
  rw [hquiet.undefined, hquiet.respectful, hs₁]
  exact ⟨hdefined, respectful_message.trans (and_iff_right (h.mp hdefined))⟩

/-- The loop that takes the frames of a connection accesses it after it was dropped exactly if the
callback has dropped it without throwing. -/
theorem Sound.extractLoop {fuel : ℕ} {s : TcpServer} (h : Sound handler s)
    (hdefined : s.undefined = false) (hfd : s.connections fd = some buffer)
    (hfuel : buffer.length < fuel) :
  Sound handler (extractLoop handler fd fuel s).1
    ∧ ((extractLoop handler fd fuel s).2 = .goOn →
      (extractLoop handler fd fuel s).1.undefined = false)
  := by
  induction fuel generalizing s buffer with
  | zero => exact absurd hfuel (Nat.not_lt_zero _)
  | succ fuel ih =>
      rw [TcpServer.extractLoop, hfd]
      dsimp only
      cases hextract : tryExtract buffer with
      | error e => exact ⟨h.quiet (quiet_disconnect s fd), by rintro ⟨⟩⟩
      | ok extracted =>
          cases extracted with
          | none => exact ⟨h, fun _ => hdefined⟩
          | some frame =>
              obtain ⟨payload, rest⟩ := frame
              have hshrinks : rest.length < buffer.length := frameDecoder.shrinks hextract
              dsimp only
              generalize hs₁ :
                (s.setConnection fd (some rest)).callBack (.onMessage fd payload) = s₁
              obtain ⟨hdefined', hrespectful⟩ := h.message hdefined hs₁.symm
              by_cases hkeeps : (handler s₁.callbacks).Keeps fd
              · have hsound := iff_of_true hdefined' (hrespectful.mpr hkeeps)
                split
                · exact ⟨Sound.quiet hsound (quiet_disconnect ..), by rintro ⟨⟩⟩
                · next hthrows =>
                    have hfd₁ : s₁.connections fd = some rest := by
                      rw [← hs₁]
                      exact setConnection_self fd (some rest)
                    have hkept := sends_kept (s := s₁) (hkeeps.resolve_left hthrows)
                    exact ih hsound hdefined' (hkept.trans hfd₁) (by omega)
              · have hdrops : (handler s₁.callbacks).throws ≠ true
                    ∧ ∃ call ∈ (handler s₁.callbacks).sends, call.id = fd ∧ call.fails = true := by
                  simpa [Handling.Keeps] using hkeeps
                rw [if_neg hdrops.1, extractLoop_dropped (sends_dropped hdrops.2) (by omega)]
                exact ⟨iff_of_false (by simp) (hrespectful.not.mpr hkeeps), by rintro ⟨⟩⟩

theorem Sound.recvLoop {s : TcpServer} (h : Sound handler s) (hdefined : s.undefined = false)
    (fd : ℤ) (answers : List RecvAnswer) :
  Sound handler (recvLoop handler fd answers s)
  := by
  induction answers generalizing s with
  | nil => exact h
  | cons answer answers ih =>
      cases answer with
      | data chunk =>
          rw [TcpServer.recvLoop]
          split
          · exact h
          · next buffer hfd =>
              have hreceived : Sound handler (s.setConnection fd (some (buffer ++ chunk))) := h
              obtain ⟨hextract, hgoes⟩ := hreceived.extractLoop hdefined (setConnection_self ..)
                (Nat.lt_succ_self _)
              dsimp only
              split
              · next heq =>
                  rw [heq] at hextract hgoes
                  exact ih hextract (hgoes rfl)
              · next heq =>
                  rw [heq] at hextract
                  exact hextract
      | closed => exact h.quiet (quiet_disconnect s fd)
      | again => exact h
      | interrupted => exact ih h hdefined
      | failed => exact h.quiet (quiet_disconnect s fd)

theorem Sound.step {s : TcpServer} (h : Sound handler s) (event : Event) :
  Sound handler (s.step handler event)
  := by
  unfold TcpServer.step
  split
  · exact h
  · next hundefined =>
      have hdefined : s.undefined = false := Bool.not_eq_true _ ▸ hundefined
      cases event with
      | accepted fd peerAddr =>
          dsimp only
          split
          · exact h
          · exact h.quiet ⟨rfl, fun handler => respectful_concat (by rintro _ _ ⟨⟩)⟩
      | ready fd errorOrHangup answers =>
          dsimp only
          split
          · exact h
          · rw [handleReadable]
            split
            · exact h.quiet (quiet_disconnect s fd)
            · exact h.recvLoop hdefined fd answers
      | sent call => exact h.quiet (quiet_send s call)

theorem sound_run (handler : List Callback → Handling) (events : List Event) :
  Sound handler (run handler events)
  := by
  induction events using List.reverseRecOn with
  | nil =>
      refine iff_of_true rfl ?_
      intro before fd payload hbefore
      simp [run, new] at hbefore
  | append_singleton events event ih =>
      rw [run, List.foldl_append]
      exact ih.step event

/-- The callbacks of each connection come in order, whatever happens. The loop that takes frames
accesses no connection that was dropped if and only if at each message the callback throws, or none
of its sends to the connection of the message fails. -/
theorem lifecycle_iff (handler : List Callback → Handling) (events : List Event) :
  (∀ fd, lifecycle fd (run handler events).callbacks
      = some ((run handler events).connections fd).isSome)
    ∧ ((run handler events).undefined = false
      ↔ ∀ before fd payload,
        before ++ [Callback.onMessage fd payload] <+: (run handler events).callbacks →
        (handler (before ++ [Callback.onMessage fd payload])).throws = true
          ∨ ∀ call ∈ (handler (before ++ [Callback.onMessage fd payload])).sends,
            call.id = fd → call.fails = false)
  := ⟨callbacks_in_order handler events, sound_run handler events⟩

/-- A connection sends one frame. The callback answers it, the answer fails, and the loop goes on
with the connection, which is gone. -/
theorem drops_and_goes_on :
  let handler : List Callback → Handling := fun _ => ⟨[⟨5, [1], 1, [.failed]⟩], false⟩
  let s := run handler [.accepted 5 "127.0.0.1:4000", .ready 5 false [.data [0, 0, 0, 1, 7]]]
  s.undefined = true
    ∧ s.callbacks = [.onConnect 5 "127.0.0.1:4000", .onMessage 5 [7], .onDisconnect 5]
    ∧ (s.connections 5).isSome = false
  := by
  decide +kernel

end

end TcpServer

end Net
