import Cascade.Net.TcpClient
import Cascade.Net.TcpServer

/-!
# Messages from clients to a server

A client of `net/tcp_client.hpp` sends messages to a server of `net/tcp_server.hpp`. The kernel
takes the frames in pieces of any size, and gives them to the server in other pieces, while the
server serves other connections. What has been called back for a connection are the messages of the
bytes that have arrived on it (`TcpServer.Reads`). So the messages that are called back are those
that were sent, in order, and all of them when all bytes have arrived
(`TcpServer.messages_in_order`).
-/

open Bytes

namespace Net

/-! ### What a client puts onto the wire -/

namespace TcpClient

/-- Messages that are sent one after the other, each with what the kernel answers, until one of them
is not sent: how the last call ends, and what is on the wire. -/
def sendAll : List (List UInt8 × List SendAnswer) → SendEnding × List UInt8
  | [] => (.returned, [])
  | (payload, answers) :: sends =>
      let r := send payload answers
      match r.1 with
      | .returned =>
          let rs := sendAll sends
          (rs.1, r.2 ++ rs.2)
      | ending => (ending, r.2)

/-- Of a frame something is on the wire, and all of it when the call returns. -/
theorem sendLoop_wire {frame : List UInt8} (answers : List SendAnswer) (sent : ℕ) :
  (sendLoop frame answers sent (frame.take sent)).2 <+: frame
    ∧ ((sendLoop frame answers sent (frame.take sent)).1 = .returned →
      (sendLoop frame answers sent (frame.take sent)).2 = frame)
  := by
  have hreturned : ∀ {sent : ℕ}, ¬ sent < frame.length → frame.take sent = frame :=
    fun hsent => List.take_of_length_le (not_lt.mp hsent)
  induction answers generalizing sent with
  | nil =>
      rw [sendLoop]
      split
      · exact ⟨List.take_prefix .., fun hreturned => by cases hreturned⟩
      · rename_i hsent
        exact ⟨List.take_prefix .., fun _ => hreturned hsent⟩
  | cons answer answers ih =>
      rw [sendLoop.eq_def]
      dsimp only
      split
      · cases answer with
        | eintr => apply ih
        | failed description => exact ⟨List.take_prefix .., fun h => by cases h⟩
        | sent n =>
            dsimp only
            rw [slice, ← List.take_add]
            apply ih
      · rename_i hsent
        exact ⟨List.take_prefix .., fun _ => hreturned hsent⟩

theorem send_wire {payload : List UInt8} (hlen : payload.length < 2 ^ 32)
    (answers : List SendAnswer) :
  (payload.length ≤ kMaxFrameSize.toNat
      ∧ (send payload answers).2 <+: storeLength (UInt32.ofNat payload.length) ++ payload
      ∧ ((send payload answers).1 = .returned →
        (send payload answers).2 = storeLength (UInt32.ofNat payload.length) ++ payload))
    ∨ (send payload answers).2 = [] ∧ (send payload answers).1 ≠ .returned
  := by
  by_cases hmax : payload.length ≤ kMaxFrameSize.toNat
  · left
    have hframe := encodeFrame_eq hmax
    rw [encodeFrame] at hframe
    rw [send, sendBytes, hframe]
    exact ⟨hmax, sendLoop_wire answers 0⟩
  · right
    have hrefused : encodeFrame payload = .error "payload exceeds kMaxFrameSize" := by
      apply encodeFrame_refused
      rw [Nat.mod_eq_of_lt hlen]
      exact not_le.mp hmax
    rw [send_refused hrefused]
    exact ⟨rfl, fun h => by cases h⟩

theorem drain_frame_append {payload : List UInt8} (hmax : payload.length ≤ kMaxFrameSize.toNat)
    (rest : List UInt8) :
  frameDecoder.drain (storeLength (UInt32.ofNat payload.length) ++ payload ++ rest)
    = (payload :: (frameDecoder.drain rest).1, (frameDecoder.drain rest).2)
  := Decoder.drain_some (tryExtract_frame hmax rest)

/-- The messages that can be decoded from the wire are those that were sent, and all of them if all
calls return. -/
theorem drain_sendAll {sends : List (List UInt8 × List SendAnswer)}
    (hlen : ∀ send ∈ sends, send.1.length < 2 ^ 32) :
  (frameDecoder.drain (sendAll sends).2).1 <+: sends.map Prod.fst
    ∧ ((sendAll sends).1 = .returned →
      frameDecoder.drain (sendAll sends).2 = (sends.map Prod.fst, .ok []))
  := by
  have hnil : frameDecoder.drain [] = ([], .ok []) := Decoder.drain_none rfl
  induction sends with
  | nil =>
      rw [sendAll, hnil]
      exact ⟨List.prefix_refl _, fun _ => rfl⟩
  | cons first sends ih =>
      obtain ⟨payload, answers⟩ := first
      rw [List.forall_mem_cons] at hlen
      obtain ⟨ihwire, ihreturned⟩ := ih hlen.2
      rw [sendAll]
      dsimp only
      rcases send_wire hlen.1 answers with ⟨hmax, hwire, hframe⟩ | ⟨hwire, hending⟩
      · split
        · rename_i hreturned
          rw [hframe hreturned, drain_frame_append hmax]
          refine ⟨?_, ?_⟩
          · exact List.cons_prefix_cons.mpr ⟨rfl, ihwire⟩
          · intro hrest
            rw [ihreturned hrest]
            rfl
        · rename_i hnot
          refine ⟨?_, fun hreturned => absurd hreturned (by simpa using hnot)⟩
          -- At most the frame is on the wire.
          have hfirst := frameDecoder.drain_fst_of_isPrefix hwire
          rw [← List.append_nil (storeLength _ ++ payload), drain_frame_append hmax, hnil]
            at hfirst
          exact hfirst.trans (List.prefix_append [payload] _)
      · split
        · rename_i hreturned
          exact absurd hreturned hending
        · rename_i hnot
          rw [hwire, hnil]
          exact ⟨List.nil_prefix, fun hreturned => absurd hreturned (by simpa using hnot)⟩

end TcpClient

/-! ### What a server calls back -/

namespace TcpServer

/-- The message of a connection that is called back. -/
def Callback.message (fd : ℤ) : Callback → Option (List UInt8)
  | .onMessage fd' payload => if fd' = fd then some payload else none
  | _ => none

def messages (fd : ℤ) (callbacks : List Callback) : List (List UInt8) :=
  callbacks.filterMap (Callback.message fd)

theorem messages_append (fd : ℤ) (callbacks more : List Callback) :
  messages fd (callbacks ++ more) = messages fd callbacks ++ messages fd more
  := List.filterMap_append

variable {fd fd' : ℤ} {s s' s'' : TcpServer} {handler : List Callback → Handling}

/-- Of a connection, nothing has changed but that it may be dropped. -/
structure Kept (fd : ℤ) (s s' : TcpServer) : Prop where
  connection : s'.connections fd = s.connections fd ∨ s'.connections fd = none
  callbacks : ∃ more, s'.callbacks = s.callbacks ++ more ∧ messages fd more = []

namespace Kept

theorem refl (fd : ℤ) (s : TcpServer) :
  Kept fd s s
  := ⟨Or.inl rfl, [], (List.append_nil _).symm, rfl⟩

theorem trans (h : Kept fd s s') (h' : Kept fd s' s'') :
  Kept fd s s''
  := by
  obtain ⟨hconn, more, hmore, hnone⟩ := h
  obtain ⟨hconn', more', hmore', hnone'⟩ := h'
  refine ⟨?_, more ++ more', ?_, ?_⟩
  · rcases hconn' with heq | hdropped
    · rw [heq]
      exact hconn
    · exact Or.inr hdropped
  · rw [hmore', hmore, List.append_assoc]
  · rw [messages_append, hnone, hnone']
    rfl

theorem disconnect (fd : ℤ) (s : TcpServer) (fd' : ℤ) :
  Kept fd s (s.disconnect fd')
  := by
  refine ⟨?_, ?_⟩
  · by_cases hfd : fd = fd'
    · subst hfd
      exact Or.inr (disconnect_self fd)
    · exact Or.inl (disconnect_of_ne hfd)
  · rw [TcpServer.disconnect]
    split
    · exact ⟨[], (List.append_nil _).symm, rfl⟩
    · exact ⟨[.onDisconnect fd'], rfl, rfl⟩

theorem sends (fd : ℤ) (s : TcpServer) (calls : List SendCall) :
  Kept fd s (calls.foldl send s)
  := keeps_sends (fun _ _ h => h.trans (disconnect ..)) (refl fd s) calls

/-- The work on another connection. -/
theorem steady (hfd : fd ≠ fd') :
  Steady fd' (Kept fd s)
  := by
  constructor
  · exact fun _ _ h => h.trans (disconnect ..)
  · intro t _ _ buffer' h
    exact h.trans ⟨Or.inl (setConnection_of_ne hfd _), [], (List.append_nil _).symm, rfl⟩
  · intro t _ _ payload rest h
    refine h.trans ⟨Or.inl (setConnection_of_ne hfd _), [.onMessage fd' payload], rfl, ?_⟩
    simp [messages, Callback.message, Ne.symm hfd]
  · exact fun _ h => ⟨h.connection, h.callbacks⟩

end Kept

/-- The messages that were called back since `n` callbacks are those of the bytes. While the
connection is open, what is in the buffer is left to be decoded. -/
structure Reads (fd : ℤ) (n : ℕ) (bytes : List UInt8) (s : TcpServer) : Prop where
  le : n ≤ s.callbacks.length
  isPrefix : messages fd (s.callbacks.drop n) <+: (frameDecoder.drain bytes).1
  drain_eq : ∀ buffer, s.connections fd = some buffer → frameDecoder.drain bytes
    = (messages fd (s.callbacks.drop n) ++ (frameDecoder.drain buffer).1,
      (frameDecoder.drain buffer).2)

namespace Reads

variable {n : ℕ} {bytes : List UInt8}

theorem kept (h : Reads fd n bytes s) (hkept : Kept fd s s') :
  Reads fd n bytes s'
  := by
  obtain ⟨hconn, more, hmore, hnone⟩ := hkept
  have hmessages : messages fd (s'.callbacks.drop n) = messages fd (s.callbacks.drop n) := by
    rw [hmore, List.drop_append_of_le_length h.le, messages_append, hnone, List.append_nil]
  refine ⟨?_, ?_, ?_⟩
  · rw [hmore, List.length_append]
    exact h.le.trans (Nat.le_add_right _ _)
  · rw [hmessages]
    exact h.isPrefix
  · intro buffer hbuffer
    rw [hmessages]
    apply h.drain_eq
    rcases hconn with heq | hdropped
    · rwa [heq] at hbuffer
    · rw [hdropped] at hbuffer
      cases hbuffer

/-- Bytes that arrive when the connection was dropped are not read. -/
theorem dropped (h : Reads fd n bytes s) (hfd : s.connections fd = none) (more : List UInt8) :
  Reads fd n (bytes ++ more) s
  := by
  refine ⟨h.le, ?_, ?_⟩
  · exact h.isPrefix.trans (frameDecoder.drain_fst_of_isPrefix (List.prefix_append ..))
  · intro buffer hbuffer
    rw [hfd] at hbuffer
    cases hbuffer

/-- Bytes arrive. -/
theorem received (h : Reads fd n bytes s) {buffer : List UInt8}
    (hfd : s.connections fd = some buffer) (chunk : List UInt8) :
  Reads fd n (bytes ++ chunk) (s.setConnection fd (some (buffer ++ chunk)))
  := by
  refine ⟨h.le, ?_, ?_⟩
  · exact h.isPrefix.trans (frameDecoder.drain_fst_of_isPrefix (List.prefix_append ..))
  · intro buffer' hbuffer'
    rw [setConnection_self] at hbuffer'
    obtain rfl := Option.some.inj hbuffer'
    rw [frameDecoder.drain_append, h.drain_eq buffer hfd, frameDecoder.drain_append buffer,
      List.append_assoc]
    rfl

/-- A message is taken from the buffer and called back. -/
theorem message (h : Reads fd n bytes s) {buffer payload rest : List UInt8}
    (hfd : s.connections fd = some buffer)
    (hextract : tryExtract buffer = .ok (some (payload, rest))) :
  Reads fd n bytes ((s.setConnection fd (some rest)).callBack (.onMessage fd payload))
  := by
  have hdrain := h.drain_eq buffer hfd
  rw [Decoder.drain_some (d := frameDecoder) hextract] at hdrain
  have hmessages : messages fd (((s.setConnection fd (some rest)).callBack
      (.onMessage fd payload)).callbacks.drop n)
      = messages fd (s.callbacks.drop n) ++ [payload] := by
    have hdrop : (s.callbacks ++ [Callback.onMessage fd payload]).drop n
        = s.callbacks.drop n ++ [Callback.onMessage fd payload] :=
      List.drop_append_of_le_length h.le
    rw [callBack, setConnection, hdrop, messages_append]
    simp [messages, Callback.message]
  refine ⟨?_, ?_, ?_⟩
  · rw [callBack, List.length_append]
    exact h.le.trans (Nat.le_add_right _ _)
  · rw [hmessages, hdrain]
    exact ⟨(frameDecoder.drain rest).1, by simp⟩
  · intro buffer' hbuffer'
    have hrest : some rest = some buffer' := (setConnection_self fd (some rest)).symm.trans hbuffer'
    obtain rfl := Option.some.inj hrest
    rw [hmessages, hdrain, List.append_assoc]
    rfl

variable (handler) in
/-- The loop that takes the frames calls back messages of the bytes. It goes on when there is no
frame left, and otherwise the connection was dropped. -/
theorem extractLoop (h : Reads fd n bytes s) {buffer : List UInt8}
    (hfd : s.connections fd = some buffer) {fuel : ℕ} (hfuel : buffer.length < fuel) :
  Reads fd n bytes (extractLoop handler fd fuel s).1
    ∧ ((extractLoop handler fd fuel s).2 = .goOn →
      ∀ buffer', (extractLoop handler fd fuel s).1.connections fd = some buffer' →
        tryExtract buffer' = .ok none)
    ∧ ((extractLoop handler fd fuel s).2 = .done →
      (extractLoop handler fd fuel s).1.connections fd = none)
  := by
  induction fuel generalizing s buffer with
  | zero => exact absurd hfuel (Nat.not_lt_zero _)
  | succ fuel ih =>
      rw [TcpServer.extractLoop, hfd]
      dsimp only
      cases hextract : tryExtract buffer with
      | error e =>
          exact ⟨h.kept (.disconnect ..), (fun hgo => by cases hgo), fun _ => disconnect_self fd⟩
      | ok extracted =>
          cases extracted with
          | none =>
              refine ⟨h, ?_, fun hdone => by cases hdone⟩
              intro _ buffer' hbuffer'
              obtain rfl := Option.some.inj (hfd.symm.trans hbuffer')
              exact hextract
          | some frame =>
              obtain ⟨payload, rest⟩ := frame
              have hshrinks : rest.length < buffer.length := frameDecoder.shrinks hextract
              dsimp only
              generalize hs₁ :
                (s.setConnection fd (some rest)).callBack (.onMessage fd payload) = s₁
              have hmessage : Reads fd n bytes s₁ := hs₁ ▸ h.message hfd hextract
              have hsends := hmessage.kept (.sends fd s₁ (handler s₁.callbacks).sends)
              split
              · exact ⟨hsends.kept (.disconnect ..), (fun hgo => by cases hgo),
                  fun _ => disconnect_self fd⟩
              · cases hconn : ((handler s₁.callbacks).sends.foldl send s₁).connections fd with
                | none =>
                    rw [extractLoop_dropped hconn (by omega)]
                    exact ⟨⟨hsends.le, hsends.isPrefix, hsends.drain_eq⟩,
                      (fun hgo => by cases hgo), fun _ => hconn⟩
                | some buffer' =>
                    have hrest : s₁.connections fd = some rest := by
                      rw [← hs₁]
                      exact setConnection_self fd (some rest)
                    obtain rfl := Option.some.inj ((of_sends hconn).symm.trans hrest)
                    exact ih hsends hconn (by omega)

end Reads

/-- The bytes that `handle_readable` receives. -/
def receivedBytes : List RecvAnswer → List UInt8
  | [] => []
  | .data chunk :: answers => chunk ++ receivedBytes answers
  | .interrupted :: answers => receivedBytes answers
  | .closed :: _ | .again :: _ | .failed :: _ => []

/-- There is no frame left in the buffer of the connection. -/
def Settled (fd : ℤ) (s : TcpServer) : Prop :=
  ∀ buffer, s.connections fd = some buffer → tryExtract buffer = .ok none

theorem Settled.kept (h : Settled fd s) (hkept : Kept fd s s') :
  Settled fd s'
  := by
  intro buffer hbuffer
  apply h
  rcases hkept.connection with heq | hdropped
  · rwa [heq] at hbuffer
  · rw [hdropped] at hbuffer
    cases hbuffer

theorem Settled.dropped (h : s.connections fd = none) :
  Settled fd s
  := by
  intro buffer hbuffer
  rw [h] at hbuffer
  cases hbuffer

theorem reads_recvLoop {n : ℕ} {bytes : List UInt8} (h : Reads fd n bytes s)
    (hsettled : Settled fd s) (answers : List RecvAnswer) :
  Reads fd n (bytes ++ receivedBytes answers) (recvLoop handler fd answers s)
    ∧ Settled fd (recvLoop handler fd answers s)
  := by
  induction answers generalizing s bytes with
  | nil =>
      rw [receivedBytes, List.append_nil]
      exact ⟨h, hsettled⟩
  | cons answer answers ih =>
      cases answer with
      | data chunk =>
          rw [TcpServer.recvLoop, receivedBytes, ← List.append_assoc]
          split
          · rename_i hfd
            exact ⟨(h.dropped hfd chunk).dropped hfd _, hsettled⟩
          · rename_i buffer hfd
            obtain ⟨hreads, hgoes, hdone⟩ := (h.received hfd chunk).extractLoop
              handler (setConnection_self ..) (Nat.lt_succ_self _)
            dsimp only
            split
            · rename_i heq
              rw [heq] at hreads hgoes
              exact ih hreads (hgoes rfl)
            · rename_i heq
              rw [heq] at hreads hdone
              exact ⟨hreads.dropped (hdone rfl) _, .dropped (hdone rfl)⟩
      | closed =>
          rw [receivedBytes, List.append_nil]
          exact ⟨h.kept (.disconnect ..), hsettled.kept (.disconnect ..)⟩
      | again =>
          rw [receivedBytes, List.append_nil]
          exact ⟨h, hsettled⟩
      | interrupted => exact ih h hsettled
      | failed =>
          rw [receivedBytes, List.append_nil]
          exact ⟨h.kept (.disconnect ..), hsettled.kept (.disconnect ..)⟩

/-! ### Runs -/

/-- The bytes that arrive on a connection. -/
def Event.bytes (fd : ℤ) : Event → List UInt8
  | .ready fd' false answers => if fd' = fd then receivedBytes answers else []
  | _ => []

/-- The bytes that arrive on a connection in some events. -/
def arrived (fd : ℤ) (events : List Event) : List UInt8 := events.flatMap (Event.bytes fd)

variable (handler) in
theorem reads_step {n : ℕ} {bytes : List UInt8} (h : Reads fd n bytes s)
    (hsettled : Settled fd s) (hdefined : s.undefined = false) {event : Event}
    (haccepted : ∀ peerAddr, event ≠ .accepted fd peerAddr) :
  Reads fd n (bytes ++ event.bytes fd) (s.step handler event)
    ∧ Settled fd (s.step handler event)
  := by
  -- Most events concern other connections.
  have hother : ∀ {s'}, Kept fd s s' →
      Reads fd n (bytes ++ []) s' ∧ Settled fd s' := by
    intro s' hkept
    rw [List.append_nil]
    exact ⟨h.kept hkept, hsettled.kept hkept⟩
  unfold TcpServer.step
  rw [if_neg (by rw [hdefined]; decide)]
  cases event with
  | accepted fd' peerAddr =>
      have hfd : fd ≠ fd' := by
        rintro rfl
        exact haccepted peerAddr rfl
      dsimp only
      split
      · exact hother (.refl ..)
      · exact hother ⟨Or.inl (setConnection_of_ne hfd _), [.onConnect fd' peerAddr], rfl, rfl⟩
  | ready fd' errorOrHangup answers =>
      dsimp only
      by_cases hfd : fd' = fd
      · subst hfd
        split
        · rename_i hnone
          exact ⟨h.dropped hnone _, hsettled⟩
        · cases errorOrHangup with
          | true => exact hother (.disconnect ..)
          | false =>
              rw [Event.bytes, if_pos rfl]
              exact reads_recvLoop h hsettled answers
      · have hbytes : (Event.ready fd' errorOrHangup answers).bytes fd = [] := by
          cases errorOrHangup with
          | true => rfl
          | false => exact if_neg hfd
        rw [hbytes]
        split
        · exact hother (.refl ..)
        · apply hother
          rw [handleReadable]
          split
          · apply Kept.disconnect
          · exact (Kept.steady (Ne.symm hfd)).recvLoop (.refl ..) handler answers
  | sent call => exact hother (.sends fd s [call])

/-- After something undefined nothing happens. -/
theorem foldl_undefined (handler : List Callback → Handling) (events : List Event)
    (h : s.undefined = true) :
  events.foldl (step handler) s = s
  := by
  induction events with
  | nil => rfl
  | cons event events ih =>
      rw [List.foldl_cons]
      have hstep : s.step handler event = s := by
        unfold TcpServer.step
        exact if_pos h
      rw [hstep, ih]

theorem reads_run {n : ℕ} {bytes : List UInt8} (h : Reads fd n bytes s) (hsettled : Settled fd s)
    {events : List Event} (haccepted : ∀ peerAddr, .accepted fd peerAddr ∉ events)
    (hdefined : (events.foldl (step handler) s).undefined = false) :
  Reads fd n (bytes ++ arrived fd events) (events.foldl (step handler) s)
    ∧ Settled fd (events.foldl (step handler) s)
  := by
  induction events generalizing s bytes with
  | nil =>
      rw [arrived, List.flatMap_nil, List.append_nil]
      exact ⟨h, hsettled⟩
  | cons event events ih =>
      have hs : s.undefined = false := by
        by_contra hundefined
        rw [Bool.not_eq_false] at hundefined
        rw [foldl_undefined handler _ hundefined, hundefined] at hdefined
        cases hdefined
      have hevent : ∀ peerAddr, event ≠ .accepted fd peerAddr :=
        fun peerAddr heq => haccepted peerAddr (heq ▸ List.mem_cons_self)
      obtain ⟨hstep, hsettled'⟩ := reads_step handler h hsettled hs hevent
      rw [arrived, List.flatMap_cons, ← arrived, ← List.append_assoc]
      exact ih hstep hsettled' (fun peerAddr hmem =>
        haccepted peerAddr (List.mem_cons_of_mem event hmem)) hdefined

variable (handler) in
/-- A connection begins with no bytes. -/
theorem reads_accepted (hdefined : s.undefined = false) (hnew : s.connections fd = none)
    (peerAddr : String) :
  Reads fd s.callbacks.length [] (s.step handler (.accepted fd peerAddr))
    ∧ Settled fd (s.step handler (.accepted fd peerAddr))
  := by
  have hstep : s.step handler (.accepted fd peerAddr)
      = (s.setConnection fd (some [])).callBack (.onConnect fd peerAddr) := by
    unfold TcpServer.step
    rw [if_neg (by rw [hdefined]; decide)]
    dsimp only
    rw [hnew]
  have hmessages : messages fd (((s.setConnection fd (some [])).callBack
      (.onConnect fd peerAddr)).callbacks.drop s.callbacks.length) = [] := by
    rw [callBack, setConnection, List.drop_left]
    rfl
  have hbuffer : ∀ buffer, ((s.setConnection fd (some [])).callBack
      (.onConnect fd peerAddr)).connections fd = some buffer → buffer = [] := by
    intro buffer hbuffer
    have hnil := (setConnection_self (s := s) fd (some [])).symm.trans hbuffer
    exact (Option.some.inj hnil).symm
  rw [hstep]
  refine ⟨⟨?_, ?_, ?_⟩, ?_⟩
  · rw [callBack, List.length_append]
    exact Nat.le_add_right _ _
  · rw [hmessages]
    exact List.nil_prefix
  · intro buffer hconn
    rw [hmessages, hbuffer buffer hconn, List.nil_append]
  · intro buffer hconn
    rw [hbuffer buffer hconn]
    rfl

/-- A connection is accepted, on which the bytes of a client arrive, and other things happen. What
is called back for the connection are messages of the client, in order. When all bytes of a client
have arrived whose calls have all returned, and the connection was not dropped, then these are all
messages. -/
theorem messages_in_order (handler : List Callback → Handling) (before after : List Event) (fd : ℤ)
    (peerAddr : String) (hnew : (run handler before).connections fd = none)
    (hafter : ∀ peerAddr, .accepted fd peerAddr ∉ after)
    (hdefined : (run handler (before ++ .accepted fd peerAddr :: after)).undefined = false)
    (sends : List (List UInt8 × List Net.SendAnswer))
    (hlen : ∀ send ∈ sends, send.1.length < 2 ^ 32)
    (hwire : arrived fd after <+: (TcpClient.sendAll sends).2) :
  let s := run handler (before ++ .accepted fd peerAddr :: after)
  let called := messages fd (s.callbacks.drop (run handler before).callbacks.length)
  called <+: sends.map Prod.fst
    ∧ ((TcpClient.sendAll sends).1 = .returned →
      arrived fd after = (TcpClient.sendAll sends).2 → (s.connections fd).isSome = true →
      called = sends.map Prod.fst ∧ s.connections fd = some [])
  := by
  intro s called
  have hrun : s = after.foldl (step handler) ((run handler before).step handler
      (.accepted fd peerAddr)) := by
    change (before ++ _ :: after).foldl (step handler) new = _
    rw [List.foldl_append, List.foldl_cons]
    rfl
  have hbefore : (run handler before).undefined = false := by
    by_contra hundefined
    rw [Bool.not_eq_false] at hundefined
    have hstays := foldl_undefined handler (.accepted fd peerAddr :: after) hundefined
    rw [List.foldl_cons, ← hrun] at hstays
    rw [← hstays] at hundefined
    exact absurd (hdefined.symm.trans hundefined) (by decide)
  have hdefined' : s.undefined = false := hdefined
  rw [hrun] at hdefined'
  obtain ⟨hreads, hsettled⟩ := reads_accepted handler hbefore hnew peerAddr
  obtain ⟨hreads, hsettled⟩ := reads_run hreads hsettled hafter hdefined'
  rw [← hrun, List.nil_append] at hreads
  rw [← hrun] at hsettled
  obtain ⟨hsent, hall⟩ := TcpClient.drain_sendAll hlen
  refine ⟨hreads.isPrefix.trans ((frameDecoder.drain_fst_of_isPrefix hwire).trans hsent), ?_⟩
  intro hreturned harrived hopen
  obtain ⟨buffer, hbuffer⟩ := Option.isSome_iff_exists.mp hopen
  have hdrain := hreads.drain_eq buffer hbuffer
  rw [harrived, hall hreturned, Decoder.drain_none (d := frameDecoder) (hsettled buffer hbuffer),
    List.append_nil] at hdrain
  obtain ⟨hcalled, hrest⟩ := Prod.mk.inj hdrain
  rw [hbuffer, Except.ok.inj hrest]
  exact ⟨hcalled.symm, rfl⟩

/-- Two messages are sent, the first one in two pieces, and arrive in other pieces, between those
of another client. -/
theorem messages_in_order_cut :
  let handler : List Callback → Handling := fun _ => ⟨[⟨5, [9], 1, []⟩], false⟩
  let sends : List (List UInt8 × List Net.SendAnswer) :=
    [([1, 2], [.sent 5, .eintr, .sent 9]), ([], [.sent 4])]
  let after : List Event := [.ready 5 false [.data [0, 0, 0], .interrupted, .data [2, 1], .again],
    .accepted 6 "127.0.0.1:4001", .ready 6 false [.data [0, 0, 0, 0], .again],
    .ready 5 false [.data [2, 0, 0], .data [0, 0], .again]]
  messages 5 ((run handler (.accepted 5 "127.0.0.1:4000" :: after)).callbacks.drop 0)
    = sends.map Prod.fst
  := by
  intro handler sends after
  have hall := messages_in_order handler [] after 5 "127.0.0.1:4000" rfl (by simp [after])
    (by decide +kernel) sends (by decide) (by decide +kernel)
  exact (hall.2 (by decide +kernel) (by decide +kernel) (by decide +kernel)).1

end TcpServer

end Net
