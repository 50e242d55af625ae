import DecentStore.ClientSockets

/-!
# Closing what was opened

An operation that closes its socket and then throws inside its own `try` closes the number twice,
and between the two the embedded peer may have been given it. `put` does so when the reply is not
`OK`, and `get` when there is no reply line, when it is not `OK` and when the payload is cut off. On
every other course the socket is closed once.
-/

namespace DecentStore.ClientSockets

open Bytes Interaction

def Connected (connection : Connection) : Prop :=
  connection.socketError = none ∧ connection.connectError = none

/-- The header is sent, and the data if there are any. -/
def Sent (connection : Connection) (data : Bytes) : Prop :=
  connection.sendAll.1 = .ok () ∧
    (data ≠ [] → connection.sendAll.2.sendAll.1 = .ok ())

/-- A reply that is received begins with `OK`. -/
def PutOrderly (data : Bytes) (connection : Connection) : Prop :=
  Connected connection → Sent connection data →
    ∀ resp, DecentStore.recvAllText connection.sock = .ok resp → PeerClient.saysOk resp = true

/-- A reply line comes and says `OK`, and the payload is all there or has no place. -/
def ReplyWhole [Memory] (most : Nat) (sock : Socket) : Prop :=
  ∃ header sock', DecentStore.recvLine sock = (some header, sock') ∧
    (IStream.getString ⟨header, false⟩ []).1 = str "OK" ∧
    ∀ size, size = ((IStream.getString ⟨header, false⟩ []).2.getUInt64 0).1.toNat →
      ¬ Allocates most size ∨ size ≤ sock'.bytes.length

def GetOrderly [Memory] (most : Nat) (connection : Connection) : Prop :=
  Connected connection → connection.sendAll.1 = .ok () → ReplyWhole most connection.sock

def Operation.Orderly [Memory] : Operation → Connection → Prop
  | .putChunk _ data | .putManifest _ data => PutOrderly data
  | .getChunk _ => GetOrderly maxSize
  | .getManifest _ => GetOrderly (maxSize - 1)
  | .hasChunk _ | .hasManifest _ => fun _ => True

/-! ### The socket of the operation -/

/-- The operation has its socket, and has closed nothing. -/
def Holding (sock : Nat) (connection : Connection) (s : Process) : Prop :=
  s.table.owner sock = some .client ∧ s.opened = 1 ∧ s.closes = [] ∧ s.connection = connection

/-- The operation has closed its socket. -/
def Closed (s : Process) : Prop := s.opened = 1 ∧ s.closes = [some .client]

/-- No descriptor of the other thread was closed. -/
def Spares (s : Process) : Prop := some Thread.embeddedPeer ∉ s.closes

/-- Each descriptor that was opened was closed once. -/
def Settled (s : Process) : Prop := s.closes.count (some .client) = s.opened

variable {sock : Nat} {connection : Connection} {s s' : Process}

theorem Holding.spares (hold : Holding sock connection s) : Spares s := by
  simp [Spares, hold.2.2.1]

theorem Closed.spares (hclosed : Closed s) : Spares s := by simp [Spares, hclosed.2]

theorem Closed.settled (hclosed : Closed s) : Settled s := by
  simp [Settled, hclosed.1, hclosed.2]

theorem moved_holding (hmoved : Process.surroundings.Moved s s')
    (hold : Holding sock connection s) : Holding sock connection s' := by
  apply hmoved.keeps (Holding sock connection) _ hold
  rintro s s' hmove ⟨howner, hrest⟩
  cases hmove with
  | opens => exact ⟨Descriptors.owner_install_of_some _ howner, hrest⟩
  | @closes fd hother =>
      have hne : sock ≠ fd := by
        intro heq
        rw [← heq, howner] at hother
        cases hother
      exact ⟨(Descriptors.owner_release_of_ne hne).trans howner, hrest⟩

theorem moved_closes (hmoved : Process.surroundings.Moved s s') :
    s'.closes = s.closes ∧ s'.opened = s.opened := by
  apply hmoved.keeps (fun t => t.closes = s.closes ∧ t.opened = s.opened) _ ⟨rfl, rfl⟩
  rintro t t' hmove ht
  cases hmove <;> exact ht

theorem moved_before {table : Descriptors Thread}
    (hmoved : Process.surroundings.Moved (.before table connection) s) :
    (s.closes = [] ∧ s.opened = 0) ∧ s.connection = connection := by
  apply hmoved.keeps (fun t => (t.closes = [] ∧ t.opened = 0) ∧ t.connection = connection) _
    ⟨⟨rfl, rfl⟩, rfl⟩
  rintro t t' hmove ht
  cases hmove <;> exact ht

theorem moved_closed (hmoved : Process.surroundings.Moved s s') (hclosed : Closed s) :
    Closed s' := by
  rw [Closed, (moved_closes hmoved).1, (moved_closes hmoved).2]
  exact hclosed

theorem moved_settled (hmoved : Process.surroundings.Moved s s') (hclosed : Closed s) :
    Spares s' ∧ Settled s' :=
  ⟨(moved_closed hmoved hclosed).spares, (moved_closed hmoved hclosed).settled⟩

theorem recvLine_of {line : Option Bytes} {sock' : Socket}
    (hline : DecentStore.recvLine connection.sock = (line, sock')) :
    connection.recvLine = (line, { connection with sock := sock' }) := by
  unfold Connection.recvLine
  rw [hline]

theorem length_recvExactly (connection : Connection) (size : Nat) :
    (connection.recvExactly size).1.length = min size connection.sock.bytes.length := by
  change (connection.sock.recvExactly (fun n => n) size).1.length = _
  rw [(Socket.recvExactly_eq (fun n hn => ⟨hn, le_refl n⟩) size connection.sock).1,
    List.length_take]

/-! ### Calls -/

section Calls

variable {α : Type} {post : Except Exc α → Process → Prop}

abbrev Safe (post : Except Exc α → Process → Prop) (p : SocketProg α) (s : Process) : Prop :=
  p.Safe Process.surroundings Spares post s

theorem safe_quiet (c : SocketCall) {f : c.Reply → SocketProg α}
    (next : Connection → c.Reply × Connection)
    (hquiet : ∀ s, Process.call c s =
      ((next s.connection).1, { s with connection := (next s.connection).2 }))
    (hold : Holding sock connection s)
    (hrest : ∀ s', Holding sock (next connection).2 s' → Safe post (f (next connection).1) s') :
    Safe post (Prog.ask c >>= f) s := by
  apply Prog.safe_ask_bind
  intro s' hmoved
  have hs' := moved_holding hmoved hold
  refine ⟨hs'.spares, ?_⟩
  intro r s'' hanswer
  have hcall : Process.call c s' = (r, s'') := hanswer
  rw [hquiet, hs'.2.2.2] at hcall
  cases hcall
  exact hrest _ ⟨hs'.1, hs'.2.1, hs'.2.2.1, rfl⟩

theorem safe_close {f : Unit → SocketProg α} (hold : Holding sock connection s)
    (hrest : ∀ s', Closed s' → Safe post (f ()) s') :
    Safe post (close sock >>= f) s := by
  apply Prog.safe_ask_bind
  intro s' hmoved
  have hs' := moved_holding hmoved hold
  refine ⟨hs'.spares, ?_⟩
  intro r s'' hanswer
  cases hanswer
  apply hrest
  refine ⟨hs'.2.1, ?_⟩
  simp [hs'.1, hs'.2.2.1]

/-- What a `try` block leaves for the handler: a socket to close, if it throws. -/
def Tried (sock : Nat) : Except Exc α → Process → Prop
  | .ok _, s => Closed s
  | .error _, s => ∃ connection, Holding sock connection s

theorem safe_return (hclosed : Closed s) (a : α) :
    Safe (Tried sock) (pure a : SocketProg α) s :=
  Prog.safe_pure fun _ hmoved =>
    ⟨(moved_closed hmoved hclosed).spares, moved_closed hmoved hclosed⟩

theorem safe_holding (hold : Holding sock connection s) (e : Exc) :
    Safe (Tried sock) (throw e : SocketProg α) s :=
  Prog.safe_throw fun _ hmoved =>
    ⟨(moved_holding hmoved hold).spares, connection, moved_holding hmoved hold⟩

theorem safe_sendAll {f : Unit → SocketProg α} {data : Bytes}
    (hold : Holding sock connection s)
    (hrest : connection.sendAll.1 = .ok () →
      ∀ s', Holding sock connection.sendAll.2 s' → Safe (Tried sock) (f ()) s') :
    Safe (Tried sock) (sendAllOrThrow sock data >>= f) s := by
  change Safe _ (Prog.ask (SocketCall.sendAllOrThrow sock data) >>= fun sent =>
    Prog.ofExcept sent >>= f) s
  apply safe_quiet (.sendAllOrThrow sock data) Connection.sendAll (fun _ => rfl) hold
  intro s' hold'
  rcases hsent : connection.sendAll.1 with e | u
  · exact safe_holding hold' e
  · exact hrest hsent s' hold'

theorem safe_recvAllText {f : Bytes → SocketProg α} (hold : Holding sock connection s)
    (hrest : ∀ resp, DecentStore.recvAllText connection.sock = .ok resp →
      ∀ s', Holding sock connection s' → Safe (Tried sock) (f resp) s') :
    Safe (Tried sock) (recvAllText sock >>= f) s := by
  change Safe _ (Prog.ask (SocketCall.recvAllText sock) >>= fun resp =>
    Prog.ofExcept resp >>= f) s
  apply safe_quiet (.recvAllText sock)
    (fun connection => (DecentStore.recvAllText connection.sock, connection)) (fun _ => rfl) hold
  intro s' hold'
  rcases hresp : DecentStore.recvAllText connection.sock with e | resp
  · exact safe_holding hold' e
  · exact hrest resp hresp s' hold'

end Calls

/-! ### The whole operation -/

section Whole

variable {α : Type} (peer : PeerEndpoint) (table : Descriptors Thread)

/-- Without a connection, what was opened is closed. -/
theorem connectTcp_safe (connection : Connection) :
    Safe (fun result s => match result with
      | .ok sock => Connected connection ∧ Holding sock connection s
      | .error _ => Settled s) (connectTcp peer) (.before table connection) := by
  change Safe _ (Prog.ask SocketCall.socket >>= fun opened => Prog.ofExcept opened >>= fun sock =>
    Prog.ask (SocketCall.connect sock peer) >>= fun connected => _) _
  apply Prog.safe_ask_bind
  intro s hmoved
  obtain ⟨⟨hcloses, hopened⟩, rfl⟩ := moved_before hmoved
  refine ⟨by simp [Spares, hcloses], ?_⟩
  intro r s' hanswer
  have hcall : Process.call .socket s = (r, s') := hanswer
  rcases hsocket : s.connection.socketError with - | e
  · simp only [Process.call, hsocket] at hcall
    cases hcall
    have hold : Holding s.table.lowest s.connection
        { s with table := s.table.install .client, opened := s.opened + 1 } :=
      ⟨Descriptors.owner_install_lowest _ _, by simp [hopened], hcloses, rfl⟩
    change Safe _ (Prog.ask (SocketCall.connect s.table.lowest peer) >>= fun connected => _) _
    apply safe_quiet (.connect _ peer)
      (fun connection => (Connection.failing connection.connectError, connection)) (fun _ => rfl)
      hold
    intro s' hold'
    rcases hconnect : s.connection.connectError with - | e
    · exact Prog.safe_pure fun _ hmoved =>
        ⟨(moved_holding hmoved hold').spares, ⟨hsocket, hconnect⟩, moved_holding hmoved hold'⟩
    · apply safe_close hold'
      intro s'' hclosed
      exact Prog.safe_throw fun _ hmoved => moved_settled hmoved hclosed
  · simp only [Process.call, hsocket] at hcall
    cases hcall
    apply Prog.safe_throw
    intro s' hmoved
    obtain ⟨hcloses', hopened'⟩ := moved_closes hmoved
    have hspares : Spares s' := by simp [Spares, hcloses', hcloses]
    exact ⟨hspares, by simp [Settled, hcloses', hcloses, hopened', hopened]⟩

/-- The handler closes what the `try` block has left. -/
theorem closing_safe {body : SocketProg α} (hbody : Safe (Tried sock) body s) :
    Safe (fun _ s => Settled s) (closing sock body) s := by
  apply Prog.safe_tryCatch (Tried sock) hbody
  · exact fun _ _ hclosed => hclosed.settled
  · rintro e s - ⟨connection, hold⟩
    apply safe_close hold
    intro s' hclosed
    exact Prog.safe_throw fun _ hmoved => moved_settled hmoved hclosed

theorem putReply_safe {cmd id : Bytes} (hold : Holding sock connection s)
    (hok : ∀ resp, DecentStore.recvAllText connection.sock = .ok resp →
      PeerClient.saysOk resp = true) :
    Safe (Tried sock) (putReply cmd id sock) s := by
  apply safe_recvAllText hold
  intro resp hresp s hold
  apply safe_close hold
  intro s hclosed
  rw [if_pos (hok resp hresp)]
  exact safe_return hclosed ()

theorem getReply_safe [Memory] {cmd : Bytes} {most : Nat} {tooLong : Exc}
    (hold : Holding sock connection s) (hwhole : ReplyWhole most connection.sock) :
    Safe (Tried sock) (getReply cmd most tooLong sock) s := by
  obtain ⟨header, sock', hline, hstatus, hfits⟩ := hwhole
  apply safe_quiet (.recvLine sock) Connection.recvLine (fun _ => rfl) hold
  intro s hold
  rw [recvLine_of hline] at hold ⊢
  simp only [hstatus, ne_eq, not_true_eq_false, if_false]
  have hsize := hfits _ rfl
  generalize ((IStream.getString ⟨header, false⟩ []).2.getUInt64 0).1.toNat = size at hsize ⊢
  by_cases hbuffer : Allocates most size
  swap
  · rw [allocate_error tooLong hbuffer]
    exact safe_holding hold _
  · rw [allocate_ok tooLong hbuffer, Prog.ofExcept_ok_bind]
    apply safe_quiet (.recvExactly sock size) (fun connection => connection.recvExactly size)
      (fun _ => rfl) hold
    intro s hold
    apply safe_close hold
    intro s hclosed
    have hlength : ((Connection.recvExactly { connection with sock := sock' } size).1).length =
        size := by
      rw [length_recvExactly]
      exact Nat.min_eq_left (hsize.resolve_left (not_not.mpr hbuffer))
    rw [if_neg (not_not.mpr hlength)]
    exact safe_return hclosed _

theorem put_safe (cmd id data : Bytes) {connection : Connection}
    (hput : PutOrderly data connection) :
    Safe (fun _ s => Settled s) (put cmd peer id data) (.before table connection) := by
  apply Prog.safe_bind (connectTcp_safe peer table connection)
  · rintro sock s - ⟨hconnected, hold⟩
    apply closing_safe
    apply safe_sendAll hold
    intro hsent s hold
    split
    · apply safe_sendAll hold
      intro hsent' s hold
      exact putReply_safe hold (hput hconnected ⟨hsent, fun _ => hsent'⟩)
    · rename_i hdata
      exact putReply_safe hold (hput hconnected ⟨hsent, fun hne => absurd hne hdata⟩)
  · exact fun _ _ herror => herror

theorem get_safe [Memory] (cmd id : Bytes) (most : Nat) (tooLong : Exc) {connection : Connection}
    (hget : GetOrderly most connection) :
    Safe (fun _ s => Settled s) (get cmd most tooLong peer id) (.before table connection) := by
  apply Prog.safe_bind (connectTcp_safe peer table connection)
  · rintro sock s - ⟨hconnected, hold⟩
    apply closing_safe
    apply safe_sendAll hold
    intro hsent s hold
    exact getReply_safe hold (hget hconnected hsent)
  · exact fun _ _ herror => herror

/-- `has` closes in its handler only when it has not closed before. -/
theorem has_safe (cmd id : Bytes) (connection : Connection) :
    Safe (fun _ s => Settled s) (has cmd peer id) (.before table connection) := by
  apply Prog.safe_bind (connectTcp_safe peer table connection)
  · rintro sock s - ⟨-, hold⟩
    apply Prog.safe_tryCatch (Tried sock)
    · apply safe_sendAll hold
      intro _ s hold
      apply safe_quiet (.recvLine sock) Connection.recvLine (fun _ => rfl) hold
      intro s hold
      split
      · exact safe_close hold fun s hclosed => safe_return hclosed false
      · exact safe_close hold fun s hclosed => safe_return hclosed _
    · exact fun _ _ hclosed => hclosed.settled
    · rintro e s - ⟨connection', hold⟩
      apply safe_close hold
      intro s hclosed
      exact Prog.safe_pure fun _ hmoved => moved_settled hmoved hclosed
  · exact fun _ _ herror => herror

theorem operation_safe [Memory] (op : Operation) {connection : Connection}
    (horderly : op.Orderly connection) :
    Safe (fun _ s => Settled s) (op.prog peer) (.before table connection) := by
  cases op with
  | putChunk chunkId data => exact put_safe peer table _ chunkId data horderly
  | getChunk chunkId => exact get_safe peer table _ chunkId _ _ horderly
  | hasChunk chunkId => exact has_safe peer table _ chunkId connection
  | putManifest manifestId manifestText =>
      exact put_safe peer table _ manifestId manifestText horderly
  | getManifest manifestId => exact get_safe peer table _ manifestId _ _ horderly
  | hasManifest manifestId => exact has_safe peer table _ manifestId connection

end Whole

/-! ### Closing twice -/

section Twice

variable {α : Type} (peer : PeerEndpoint) (table : Descriptors Thread)

/-- The operation has just been given its socket, or has just closed it, and nobody else has done
anything. -/
def held (table : Descriptors Thread) (connection : Connection) : Process :=
  { table := table.install .client, opened := 1, connection := connection }

def dropped (table : Descriptors Thread) (connection : Connection) : Process :=
  { table := table, opened := 1, closes := [some .client], connection := connection }

theorem run_socket {connection : Connection} (hsocket : connection.socketError = none) :
    (Prog.ask SocketCall.socket : SocketProg (Except Exc Nat)).run Process.call
      (.before table connection) = (.ok (.ok table.lowest), held table connection) := by
  simp [Process.call, Process.before, hsocket, held]

theorem run_connect (connection : Connection) :
    (Prog.ask (SocketCall.connect table.lowest peer) : SocketProg (Except Exc Unit)).run
        Process.call (held table connection) =
      (.ok (Connection.failing connection.connectError), held table connection) := rfl

theorem run_connectTcp {connection : Connection} (hconnected : Connected connection) :
    (connectTcp peer).run Process.call (.before table connection) =
      (.ok table.lowest, held table connection) := by
  change ((Prog.ask SocketCall.socket : SocketProg (Except Exc Nat)) >>= fun opened =>
    Prog.ofExcept opened >>= fun sock =>
    Prog.ask (SocketCall.connect sock peer) >>= fun connected => _).run _ _ = _
  rw [Prog.run_bind_of_ok (run_socket table hconnected.1), Prog.ofExcept_ok_bind,
    Prog.run_bind_of_ok (run_connect peer table connection), hconnected.2]
  rfl

theorem run_sendAllOrThrow (connection : Connection) (sock : Nat) (data : Bytes) :
    (sendAllOrThrow sock data).run Process.call (held table connection) =
      (connection.sendAll.1, held table connection.sendAll.2) := by
  change (Prog.ofExcept connection.sendAll.1 : SocketProg Unit).run Process.call
    (held table connection.sendAll.2) = _
  cases connection.sendAll.1 <;> rfl

theorem run_sendAllOrThrow_of_sent {connection : Connection} (hsent : connection.sendAll.1 = .ok ())
    (data : Bytes) :
    (sendAllOrThrow table.lowest data).run Process.call (held table connection) =
      (.ok (), held table connection.sendAll.2) := by
  rw [run_sendAllOrThrow, hsent]

theorem run_close (connection : Connection) :
    (close table.lowest).run Process.call (held table connection) =
      (.ok (), dropped table connection) := by
  change (Except.ok (), { held table connection with
    table := (table.install .client).release table.lowest
    closes := [(table.install .client).owner table.lowest] }) = _
  rw [Descriptors.release_install, Descriptors.owner_install_lowest]
  rfl

/-- Closed in the `try` block and closed in the handler: in between the number was given out. -/
theorem closing_twice {connection connection' : Connection} (hconnected : Connected connection)
    {body : Nat → SocketProg α} {e : Exc}
    (hbody : (body table.lowest).run Process.call (held table connection) =
      (.error e, dropped table connection')) :
    ∃ t, Process.surroundings.Reaches
        (connectTcp peer >>= fun sock => closing sock (body sock), .before table connection) t ∧
      ¬Spares t.2 := by
  have hconnect := Surroundings.reaches_run Process.call Process.PeerMove
    (connectTcp peer) (.before table connection)
  rw [run_connectTcp peer table hconnected] at hconnect
  have htry := Surroundings.reaches_run Process.call Process.PeerMove
    (body table.lowest) (held table connection)
  rw [hbody] at htry
  have hthrown := Relation.ReflTransGen.trans
    (hconnect.bind fun sock => closing sock (body sock))
    (htry.tryCatch fun e => close table.lowest >>= fun _ => throw e)
  have hopened := hthrown.tail (.move .opens)
  have hclosed := hopened.tail (.answer rfl)
  refine ⟨_, hclosed, ?_⟩
  simp [Spares, dropped]

theorem run_recvAllText (connection : Connection) :
    (recvAllText table.lowest).run Process.call (held table connection) =
      (DecentStore.recvAllText connection.sock, held table connection) := by
  change (Prog.ofExcept (DecentStore.recvAllText connection.sock) : SocketProg Bytes).run
    Process.call (held table connection) = _
  cases DecentStore.recvAllText connection.sock <;> rfl

theorem run_recvLine {connection : Connection} {line : Option Bytes} {sock' : Socket}
    (hline : DecentStore.recvLine connection.sock = (line, sock')) :
    (Prog.ask (SocketCall.recvLine table.lowest) : SocketProg (Option Bytes)).run Process.call
        (held table connection) =
      (.ok line, held table { connection with sock := sock' }) := by
  change (Except.ok connection.recvLine.1, held table connection.recvLine.2) = _
  rw [recvLine_of hline]

theorem run_recvExactly (connection : Connection) (size : Nat) :
    (Prog.ask (SocketCall.recvExactly table.lowest size) : SocketProg Bytes).run Process.call
        (held table connection) =
      (.ok (connection.recvExactly size).1, held table (connection.recvExactly size).2) := rfl

theorem run_close_throw (connection : Connection) (e : Exc) :
    (close table.lowest >>= fun _ => throw e : SocketProg α).run Process.call
      (held table connection) = (.error e, dropped table connection) := by
  rw [Prog.run_bind_of_ok (run_close table connection)]
  rfl

theorem run_putReply_refused (connection : Connection) {cmd id resp : Bytes}
    (hresp : DecentStore.recvAllText connection.sock = .ok resp)
    (hnot : ¬PeerClient.saysOk resp = true) :
    (putReply cmd id table.lowest).run Process.call (held table connection) =
      (.error (PeerClient.failure (str "Peer " ++ cmd ++ str " failed for " ++ id)),
        dropped table connection) := by
  have hrecv := run_recvAllText table connection
  rw [hresp] at hrecv
  rw [putReply, Prog.run_bind_of_ok hrecv, Prog.run_bind_of_ok (run_close table connection),
    if_neg hnot]
  rfl

theorem run_getReply_refused [Memory] (connection : Connection) (cmd : Bytes) {most : Nat}
    (tooLong : Exc) (hwhole : ¬ReplyWhole most connection.sock) :
    ∃ e connection', (getReply cmd most tooLong table.lowest).run Process.call
      (held table connection) = (.error e, dropped table connection') := by
  unfold getReply
  rcases hrecv : DecentStore.recvLine connection.sock with ⟨_ | header, sock'⟩
  · rw [Prog.run_bind_of_ok (run_recvLine table hrecv)]
    exact ⟨_, _, run_close_throw table _ _⟩
  rw [Prog.run_bind_of_ok (run_recvLine table hrecv)]
  by_cases hstatus : (IStream.getString ⟨header, false⟩ []).1 = str "OK"
  · have hsize : ∃ size,
        size = ((IStream.getString ⟨header, false⟩ []).2.getUInt64 0).1.toNat ∧
          Allocates most size ∧ sock'.bytes.length < size := by
      by_contra hnone
      push Not at hnone
      apply hwhole
      refine ⟨header, sock', hrecv, hstatus, ?_⟩
      intro size heq
      by_cases hbuffer : Allocates most size
      · exact Or.inr (hnone size heq hbuffer)
      · exact Or.inl hbuffer
    obtain ⟨size, hheader, hbuffer, hshort⟩ := hsize
    have hlength : (Connection.recvExactly { connection with sock := sock' } size).1.length ≠
        size := by
      rw [length_recvExactly, Nat.min_eq_right hshort.le]
      exact hshort.ne
    simp only [hstatus, ne_eq, not_true_eq_false, if_false]
    rw [← hheader, allocate_ok tooLong hbuffer, Prog.ofExcept_ok_bind,
      Prog.run_bind_of_ok (run_recvExactly table _ size),
      Prog.run_bind_of_ok (run_close table _), if_pos hlength]
    exact ⟨_, _, rfl⟩
  · simp only [hstatus, ne_eq, not_false_eq_true, if_true]
    exact ⟨_, _, run_close_throw table _ _⟩

theorem put_closes_twice (cmd id data : Bytes) {connection : Connection}
    (hput : ¬PutOrderly data connection) :
    ∃ t, Process.surroundings.Reaches (put cmd peer id data, .before table connection) t ∧
      ¬Spares t.2 := by
  unfold PutOrderly at hput
  push Not at hput
  obtain ⟨hconnected, ⟨hsent, hsentData⟩, resp, hresp, hnot⟩ := hput
  by_cases hdata : data = []
  · apply closing_twice peer table hconnected
    rw [Prog.run_bind_of_ok (run_sendAllOrThrow_of_sent table hsent _), if_neg (not_not.mpr hdata)]
    exact run_putReply_refused table connection.sendAll.2 hresp hnot
  · apply closing_twice peer table hconnected
    rw [Prog.run_bind_of_ok (run_sendAllOrThrow_of_sent table hsent _), if_pos hdata,
      Prog.run_bind_of_ok (run_sendAllOrThrow_of_sent table (hsentData hdata) _)]
    exact run_putReply_refused table connection.sendAll.2.sendAll.2 hresp hnot

theorem get_closes_twice [Memory] (cmd id : Bytes) (most : Nat) (tooLong : Exc)
    {connection : Connection} (hget : ¬GetOrderly most connection) :
    ∃ t, Process.surroundings.Reaches
      (get cmd most tooLong peer id, .before table connection) t ∧ ¬Spares t.2 := by
  unfold GetOrderly at hget
  push Not at hget
  obtain ⟨hconnected, hsent, hwhole⟩ := hget
  obtain ⟨e, connection', hreply⟩ := run_getReply_refused table connection.sendAll.2 cmd
    tooLong hwhole
  apply closing_twice peer table hconnected
  rw [Prog.run_bind_of_ok (run_sendAllOrThrow_of_sent table hsent _)]
  exact hreply

theorem operation_closes_twice [Memory] (op : Operation) {connection : Connection}
    (horderly : ¬op.Orderly connection) :
    ∃ t, Process.surroundings.Reaches (op.prog peer, .before table connection) t ∧
      ¬Spares t.2 := by
  cases op with
  | putChunk chunkId data => exact put_closes_twice peer table _ chunkId data horderly
  | getChunk chunkId => exact get_closes_twice peer table _ chunkId _ _ horderly
  | hasChunk chunkId => exact absurd trivial horderly
  | putManifest manifestId manifestText =>
      exact put_closes_twice peer table _ manifestId manifestText horderly
  | getManifest manifestId => exact get_closes_twice peer table _ manifestId _ _ horderly
  | hasManifest manifestId => exact absurd trivial horderly

end Twice

/-- The program has come to its end. -/
def Done {α : Type} : SocketProg α → Prop
  | .pure _ => True
  | .throw _ => True
  | .call _ _ => False

/-- Whatever the embedded peer does in between, the operation closes each descriptor it opened once,
and none of the other thread's. -/
def ClosesItsOwn [Memory] (op : Operation) (peer : PeerEndpoint) (table : Descriptors Thread)
    (connection : Connection) : Prop :=
  ∀ p s, Process.surroundings.Reaches (op.prog peer, .before table connection) (p, s) →
    Spares s ∧ (Done p → Settled s)

section Results

variable {α : Type} (peer : PeerEndpoint) (table : Descriptors Thread) (connection : Connection)

theorem run_closing_fst (sock : Nat) (body : SocketProg α) (s : Process) :
    ((closing sock body).run Process.call s).1 = (body.run Process.call s).1 := by
  unfold closing
  rw [show tryCatch body _ = MonadExcept.tryCatch body _ from rfl, Prog.run_tryCatch]
  rcases body.run Process.call s with ⟨a | e, s'⟩ <;> rfl

theorem run_connectTcp_unopened {e : Exc} (hsocket : connection.socketError = some e) :
    (connectTcp peer).run Process.call (.before table connection) =
      (.error e, .before table connection) := by
  change (Prog.ofExcept (Process.call .socket (.before table connection)).1 >>=
    fun sock => _).run _ (Process.call .socket (.before table connection)).2 = _
  simp [Process.call, Process.before, hsocket]

theorem run_connectTcp_refused {e : Exc} (hsocket : connection.socketError = none)
    (hconnect : connection.connectError = some e) :
    (connectTcp peer).run Process.call (.before table connection) =
      (.error e, dropped table connection) := by
  change ((Prog.ask SocketCall.socket : SocketProg (Except Exc Nat)) >>= fun opened =>
    Prog.ofExcept opened >>= fun sock =>
    Prog.ask (SocketCall.connect sock peer) >>= fun connected => _).run _ _ = _
  rw [Prog.run_bind_of_ok (run_socket table hsocket), Prog.ofExcept_ok_bind,
    Prog.run_bind_of_ok (run_connect peer table connection), hconnect]
  exact run_close_throw table connection e

theorem run_connectTcp_bind_fst (body : Nat → SocketProg α) :
    ((connectTcp peer >>= body).run Process.call (.before table connection)).1 =
      match connection.socketError, connection.connectError with
      | some e, _ => .error e
      | none, some e => .error e
      | none, none => ((body table.lowest).run Process.call (held table connection)).1 := by
  rcases hsocket : connection.socketError with - | e
  · rcases hconnect : connection.connectError with - | e
    · rw [Prog.run_bind_of_ok (run_connectTcp peer table ⟨hsocket, hconnect⟩)]
    · rw [Prog.run_bind_of_error (run_connectTcp_refused peer table connection hsocket hconnect)]
  · rw [Prog.run_bind_of_error (run_connectTcp_unopened peer table connection hsocket)]

theorem run_sendAllOrThrow_bind_fst (sock : Nat) (request : Bytes) (rest : Unit → SocketProg α) :
    ((sendAllOrThrow sock request >>= rest).run Process.call (held table connection)).1 =
      match connection.sendAll.1 with
      | .error e => .error e
      | .ok () => ((rest ()).run Process.call (held table connection.sendAll.2)).1 := by
  rw [Prog.run_bind, run_sendAllOrThrow]
  cases connection.sendAll.1 <;> rfl

/-- The result over an exchange, by what is made of the socket. -/
def ofExchange (outcome : Socket → Except Exc α) : Exchange → Except Exc α
  | .refused e => .error e
  | .sendFailed e => .error e
  | .brokenPipe => .error .killed
  | .silent => .error .stuck
  | .answered sock => outcome sock

theorem run_exchange_bind_fst {σ : Type} (h : Handler Call.Reply σ) (w : σ) (request : Bytes)
    {rest : Socket → ClientProg α} (outcome : Socket → Except Exc α)
    (hrest : ∀ sock w, ((rest sock).run h w).1 = outcome sock) :
    ((PeerClient.exchange peer request >>= rest).run h w).1 =
      ofExchange outcome (h (.exchange peer request) w).1 := by
  have hask : (Prog.ask (Call.exchange peer request) : ClientProg Exchange).run h w =
      (.ok (h (.exchange peer request) w).1, (h (.exchange peer request) w).2) := rfl
  have hexchange : (PeerClient.exchange peer request).run h w =
      (ofExchange .ok (h (.exchange peer request) w).1, (h (.exchange peer request) w).2) := by
    unfold PeerClient.exchange
    rw [Prog.run_bind_of_ok hask]
    cases (h (.exchange peer request) w).1 <;> rfl
  rcases hanswer : (h (.exchange peer request) w).1 with e | e | - | - | sock
  · rw [hanswer] at hexchange
    rw [Prog.run_bind_of_error hexchange]
    rfl
  · rw [hanswer] at hexchange
    rw [Prog.run_bind_of_error hexchange]
    rfl
  · rw [hanswer] at hexchange
    rw [Prog.run_bind_of_error hexchange]
    rfl
  · rw [hanswer] at hexchange
    rw [Prog.run_bind_of_error hexchange]
    rfl
  · rw [hanswer] at hexchange
    rw [Prog.run_bind_of_ok hexchange]
    exact hrest sock _

/-- What `put` makes of the reply. -/
def putOutcome (cmd id : Bytes) (sock : Socket) : Except Exc Unit :=
  match DecentStore.recvAllText sock with
  | .error e => .error e
  | .ok resp =>
      if PeerClient.saysOk resp then .ok ()
      else .error (PeerClient.failure (str "Peer " ++ cmd ++ str " failed for " ++ id))

theorem run_putReply_fst (cmd id : Bytes) :
    ((putReply cmd id table.lowest).run Process.call (held table connection)).1 =
      putOutcome cmd id connection.sock := by
  rw [putReply, Prog.run_bind, run_recvAllText, putOutcome]
  cases DecentStore.recvAllText connection.sock with
  | error e => rfl
  | ok resp =>
      simp only
      rw [Prog.run_bind_of_ok (run_close table connection)]
      cases hsays : PeerClient.saysOk resp <;> simp

theorem run_getReply_fst [Memory] (cmd : Bytes) (most : Nat) (tooLong : Exc) :
    ((getReply cmd most tooLong table.lowest).run Process.call (held table connection)).1 =
      PeerClient.readReply cmd most tooLong connection.sock := by
  rw [getReply, PeerClient.readReply]
  rcases hrecv : DecentStore.recvLine connection.sock with ⟨_ | header, sock'⟩
  · rw [Prog.run_bind_of_ok (run_recvLine table hrecv)]
    rfl
  rw [Prog.run_bind_of_ok (run_recvLine table hrecv)]
  by_cases hstatus : (IStream.getString ⟨header, false⟩ []).1 = str "OK"
  · simp only [hstatus, ne_eq, not_true_eq_false, if_false]
    generalize ((IStream.getString ⟨header, false⟩ []).2.getUInt64 0).1.toNat = size
    rcases allocate most tooLong size with e | u
    · rfl
    · rw [Prog.ofExcept_ok_bind, Prog.run_bind_of_ok (run_recvExactly table _ size),
        Prog.run_bind_of_ok (run_close table _)]
      have hout : (Connection.recvExactly { connection with sock := sock' } size).1 =
          (sock'.recvExactly id size).1 := rfl
      rw [hout]
      by_cases hlength : (sock'.recvExactly id size).1.length = size
      · rw [if_neg (not_not.mpr hlength), if_neg (not_not.mpr hlength)]
        rfl
      · rw [if_pos hlength, if_pos hlength]
        rfl
  · simp only [hstatus, ne_eq, not_false_eq_true, if_true]
    rfl

/-- **The operation with its descriptors returns what the operation over an exchange returns.** -/
theorem put_result {σ : Type} (h : Handler Call.Reply σ) (w : σ) (cmd id data : Bytes)
    (hnet : (h (.exchange peer (PeerClient.putRequest cmd id data)) w).1 =
      connection.exchange data) :
    ((put cmd peer id data).run Process.call (.before table connection)).1 =
      ((PeerClient.put cmd peer id data).run h w).1 := by
  have hright : ((PeerClient.put cmd peer id data).run h w).1 =
      ofExchange (putOutcome cmd id) (connection.exchange data) := by
    rw [← hnet]
    apply run_exchange_bind_fst
    intro sock w
    unfold putOutcome
    cases DecentStore.recvAllText sock with
    | error e => rfl
    | ok resp =>
        simp only [Prog.ofExcept_ok_bind]
        cases PeerClient.saysOk resp <;> rfl
  rw [hright, put, run_connectTcp_bind_fst]
  unfold Connection.exchange
  rcases connection.socketError with - | e
  · rcases connection.connectError with - | e
    · rw [run_closing_fst, run_sendAllOrThrow_bind_fst]
      rcases connection.sendAll.1 with e | u
      · rfl
      by_cases hdata : data = []
      · simp only [hdata, ne_eq, not_true_eq_false, if_false, if_true]
        exact run_putReply_fst table connection.sendAll.2 cmd id
      · simp only [hdata, ne_eq, not_false_eq_true, if_false, if_true]
        rw [run_sendAllOrThrow_bind_fst]
        rcases connection.sendAll.2.sendAll.1 with e | u
        · rfl
        · exact run_putReply_fst table connection.sendAll.2.sendAll.2 cmd id
    · rfl
  · rfl

theorem get_result [Memory] {σ : Type} (h : Handler Call.Reply σ) (w : σ) (cmd id : Bytes)
    (most : Nat) (tooLong : Exc)
    (hnet : (h (.exchange peer (PeerClient.getRequest cmd id)) w).1 = connection.exchange []) :
    ((get cmd most tooLong peer id).run Process.call (.before table connection)).1 =
      ((PeerClient.get cmd most tooLong peer id).run h w).1 := by
  have hright : ((PeerClient.get cmd most tooLong peer id).run h w).1 =
      ofExchange (PeerClient.readReply cmd most tooLong) (connection.exchange []) := by
    rw [← hnet]
    apply run_exchange_bind_fst
    intro sock w
    cases PeerClient.readReply cmd most tooLong sock <;> rfl
  rw [hright, get, run_connectTcp_bind_fst]
  unfold Connection.exchange
  rcases connection.socketError with - | e
  · rcases connection.connectError with - | e
    · rw [run_closing_fst, run_sendAllOrThrow_bind_fst]
      rcases connection.sendAll.1 with e | u
      · rfl
      · exact run_getReply_fst table connection.sendAll.2 cmd most tooLong
    · rfl
  · rfl

theorem has_result {σ : Type} (h : Handler Call.Reply σ) (w : σ) (cmd id : Bytes)
    (hnet : (h (.exchange peer (PeerClient.getRequest cmd id)) w).1 = connection.exchange []) :
    ((has cmd peer id).run Process.call (.before table connection)).1 =
      ((PeerClient.has cmd peer id).run h w).1 := by
  have hask : (Prog.ask (Call.exchange peer (PeerClient.getRequest cmd id)) :
      ClientProg Exchange).run h w = (.ok (connection.exchange []),
        (h (.exchange peer (PeerClient.getRequest cmd id)) w).2) := by
    rw [← hnet]
    rfl
  rw [PeerClient.has, Prog.run_bind_of_ok hask, has, run_connectTcp_bind_fst]
  unfold Connection.exchange
  rcases connection.socketError with - | e
  · rcases connection.connectError with - | e
    · simp only
      rw [show ∀ (p : SocketProg Bool) f, tryCatch p f = MonadExcept.tryCatch p f from
        fun _ _ => rfl, Prog.run_tryCatch, Prog.run_bind, run_sendAllOrThrow]
      rcases connection.sendAll.1 with e | u
      · rfl
      simp only [if_true]
      have hsock : connection.sendAll.2.sock = connection.sock := rfl
      rcases hrecv : DecentStore.recvLine connection.sock with ⟨_ | line, sock'⟩
      · rw [Prog.run_bind_of_ok (run_recvLine table (hsock ▸ hrecv))]
        rfl
      · rw [Prog.run_bind_of_ok (run_recvLine table (hsock ▸ hrecv))]
        rfl
    · rfl
  · rfl

end Results

end DecentStore.ClientSockets
