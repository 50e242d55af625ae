import DecentStore.Lib.Words
import DecentStore.PeerService

/-!
# A connection as bytes

What the service does with a connection does not depend on how the network cuts the bytes. The
first line, up to 8192 bytes and without its carriage returns, gives a command, an id and the word
of a length; what follows the line is there for a payload.
-/

namespace DecentStore

open Bytes

def isNewline (b : UInt8) : Bool := b == newline

/-- The line that begins with `acc` and goes on with the bytes, if it ends and is not too long. -/
def lineFrom (acc bytes : Bytes) : Option Bytes :=
  let line := acc ++ (bytes.takeWhile (!isNewline ·)).filter (· ≠ 13)
  if newline ∈ bytes ∧ line.length ≤ 8192 then some line else none

def headerLine (bytes : Bytes) : Option Bytes := lineFrom [] bytes

def afterLine (bytes : Bytes) : Bytes := (bytes.dropWhile (!isNewline ·)).tail

section Line

variable {acc bytes : Bytes} {b : UInt8}

theorem lineFrom_newline (hcap : acc.length ≤ 8192) : lineFrom acc (10 :: bytes) = some acc := by
  simp [lineFrom, isNewline, hcap]

theorem lineFrom_long (hlong : 8192 < acc.length) : lineFrom acc bytes = none := by
  simp only [lineFrom, List.length_append, ite_eq_right_iff, reduceCtorEq, imp_false, not_and]
  omega

theorem lineFrom_cons (hb : b ≠ 10) :
    lineFrom acc (b :: bytes) = lineFrom (if b ≠ 13 then acc ++ [b] else acc) bytes := by
  have hmem : newline ∈ b :: bytes ↔ newline ∈ bytes := by
    rw [List.mem_cons, or_iff_right (Ne.symm hb)]
  have hline : (b :: bytes).takeWhile (!isNewline ·) = b :: bytes.takeWhile (!isNewline ·) :=
    List.takeWhile_cons_of_pos (by simp [isNewline, hb])
  simp only [lineFrom, hmem, hline]
  by_cases hreturn : b = 13
  · simp [hreturn]
  · simp [hreturn]

theorem afterLine_cons (hb : b ≠ 10) : afterLine (b :: bytes) = afterLine bytes := by
  unfold afterLine
  rw [List.dropWhile_cons_of_pos (by simp [isNewline, hb])]

end Line

theorem recv_one {sock : Socket} {b : UInt8} {rest : Bytes} (hbytes : sock.bytes = b :: rest) :
    (sock.recv 1).1 = [b] ∧ sock.Left rest (sock.recv 1).2 := by
  have hne : sock.bytes ≠ [] := by simp [hbytes]
  obtain ⟨n, hpos, hle, htake, -, hleft⟩ := Socket.recv_some Nat.one_pos hne
  obtain rfl : n = 1 := by omega
  rw [hbytes] at htake hleft
  exact ⟨htake, hleft⟩

theorem recvLineLoop_eq (bytes acc : Bytes) (hcap : acc.length ≤ 8192) (turns : Nat)
    (hturns : bytes.length < turns) (sock : Socket) (hbytes : sock.bytes = bytes) :
    (recvLineLoop turns acc sock).1 = lineFrom acc bytes ∧
      ((lineFrom acc bytes).isSome →
        sock.Left (afterLine bytes) (recvLineLoop turns acc sock).2) := by
  induction bytes generalizing acc turns sock with
  | nil =>
      obtain ⟨turns, rfl⟩ : ∃ n, turns = n + 1 := ⟨turns - 1, by simp at hturns; omega⟩
      have hgot := (Socket.recv_nil 1 hbytes).1
      rcases hrecv : sock.recv 1 with ⟨got, sock'⟩
      rw [hrecv] at hgot
      simp only at hgot
      rw [recvLineLoop, hrecv, hgot]
      exact ⟨rfl, fun hsome => by cases hsome⟩
  | cons b bytes ih =>
      obtain ⟨turns, rfl⟩ : ∃ n, turns = n + 1 :=
        ⟨turns - 1, by simp only [List.length_cons] at hturns; omega⟩
      obtain ⟨hgot, hleft⟩ := recv_one hbytes
      rcases hrecv : sock.recv 1 with ⟨got, sock'⟩
      rw [hrecv] at hgot hleft
      simp only at hgot hleft
      simp only [List.length_cons] at hturns
      rw [recvLineLoop, hrecv, hgot]
      by_cases hnewline : b = 10
      · subst hnewline
        rw [lineFrom_newline hcap]
        exact ⟨rfl, fun _ => hleft⟩
      · simp only [hnewline, ↓reduceIte]
        rw [lineFrom_cons hnewline, afterLine_cons hnewline]
        by_cases hlong : 8192 < (if b ≠ 13 then acc ++ [b] else acc).length
        · rw [if_pos hlong, lineFrom_long hlong]
          exact ⟨rfl, fun hsome => by cases hsome⟩
        · rw [if_neg hlong]
          obtain ⟨hline, hrest⟩ := ih _ (Nat.not_lt.mp hlong) turns (by omega) sock' hleft.1
          exact ⟨hline, fun hsome => ⟨(hrest hsome).1, (hrest hsome).2.trans hleft.2⟩⟩

theorem recvLine_eq (sock : Socket) :
    (recvLine sock).1 = headerLine sock.bytes ∧ ((headerLine sock.bytes).isSome →
      sock.Left (afterLine sock.bytes) (recvLine sock).2) :=
  recvLineLoop_eq sock.bytes [] (Nat.zero_le _) _ (Nat.lt_succ_self _) sock rfl

namespace PeerService

/-- What the loop makes of a connection: the first words of its line, and the bytes after it. -/
structure Request where
  cmd : Bytes
  id : Bytes
  length : Option Bytes
  rest : Bytes
deriving DecidableEq

namespace Request

def ofBytes (bytes : Bytes) : Option Request :=
  (headerLine bytes).map fun line =>
    { cmd := (words line).headD []
      id := ((words line)[1]?).getD []
      length := (words line)[2]?
      rest := afterLine bytes }

/-- The size of the buffer for the payload. -/
def size (r : Request) : Nat := ((r.length.map numberOf).getD 0).toNat

def payload [Memory] (r : Request) : Except Exc (Option Bytes) := do
  allocate maxSize vectorTooLong r.size
  .ok (if r.size ≤ r.rest.length then some (r.rest.take r.size) else none)

section Reply

variable [Memory] {σ : Type} (store : ChunkStore σ) (r : Request)

/-- The reply to a `PUT`, by what the store does with the payload. -/
def putReply (put : Bytes → σ → Bool × σ) (s : σ) : Except Exc Bytes × σ :=
  match r.payload with
  | .error e => (.error e, s)
  | .ok none => (.ok err, s)
  | .ok (some data) => (.ok (if (put data s).1 then ok else err), (put data s).2)

/-- The reply to a `GET`, by what the store has. -/
def getReply : Except Exc (Option Bytes) → Except Exc Bytes
  | .error e => .error e
  | .ok none => .ok err
  | .ok (some data) => .ok (okPayload data)

/-- Exceptions of the store end in an `ERR`. -/
def stores (id data : Bytes) (s : σ) : Bool × σ :=
  match store.storeChunk id data s with
  | (.ok (), s) => (true, s)
  | (.error _, s) => (false, s)

def reply (s : σ) : Except Exc Bytes × σ :=
  if r.cmd = str "PUT_CHUNK" then r.putReply (stores store r.id) s
  else if r.cmd = str "GET_CHUNK" then
    (getReply (.ok (store.loadChunk r.id s).1.toOption), (store.loadChunk r.id s).2)
  else if r.cmd = str "HAS_CHUNK" then (.ok (if store.hasChunk r.id s then ok else err), s)
  else if r.cmd = str "PUT_MANIFEST" then r.putReply (store.writeManifest r.id) s
  else if r.cmd = str "GET_MANIFEST" then (getReply (store.readManifest r.id s), s)
  else if r.cmd = str "HAS_MANIFEST" then (.ok (if store.hasManifest r.id s then ok else err), s)
  else (.ok [], s)

variable {r} {s : σ}

theorem reply_putChunk (hcmd : r.cmd = str "PUT_CHUNK") :
    r.reply store s = r.putReply (stores store r.id) s := by
  rw [reply, if_pos hcmd]

theorem reply_getChunk (hcmd : r.cmd = str "GET_CHUNK") :
    r.reply store s =
      (getReply (.ok (store.loadChunk r.id s).1.toOption), (store.loadChunk r.id s).2) := by
  have hput : r.cmd ≠ str "PUT_CHUNK" := hcmd.trans_ne (by decide)
  rw [reply, if_neg hput, if_pos hcmd]

theorem reply_hasChunk (hcmd : r.cmd = str "HAS_CHUNK") :
    r.reply store s = (.ok (if store.hasChunk r.id s then ok else err), s) := by
  have hput : r.cmd ≠ str "PUT_CHUNK" := hcmd.trans_ne (by decide)
  have hget : r.cmd ≠ str "GET_CHUNK" := hcmd.trans_ne (by decide)
  rw [reply, if_neg hput, if_neg hget, if_pos hcmd]

theorem reply_putManifest (hcmd : r.cmd = str "PUT_MANIFEST") :
    r.reply store s = r.putReply (store.writeManifest r.id) s := by
  have hput : r.cmd ≠ str "PUT_CHUNK" := hcmd.trans_ne (by decide)
  have hget : r.cmd ≠ str "GET_CHUNK" := hcmd.trans_ne (by decide)
  have hhas : r.cmd ≠ str "HAS_CHUNK" := hcmd.trans_ne (by decide)
  rw [reply, if_neg hput, if_neg hget, if_neg hhas, if_pos hcmd]

theorem reply_getManifest (hcmd : r.cmd = str "GET_MANIFEST") :
    r.reply store s = (getReply (store.readManifest r.id s), s) := by
  have hput : r.cmd ≠ str "PUT_CHUNK" := hcmd.trans_ne (by decide)
  have hget : r.cmd ≠ str "GET_CHUNK" := hcmd.trans_ne (by decide)
  have hhas : r.cmd ≠ str "HAS_CHUNK" := hcmd.trans_ne (by decide)
  have hputManifest : r.cmd ≠ str "PUT_MANIFEST" := hcmd.trans_ne (by decide)
  rw [reply, if_neg hput, if_neg hget, if_neg hhas, if_neg hputManifest, if_pos hcmd]

theorem putReply_of_payload {data : Bytes} (hpayload : r.payload = .ok (some data))
    (put : Bytes → σ → Bool × σ) :
    r.putReply put s = (.ok (if (put data s).1 then ok else err), (put data s).2) := by
  rw [putReply, hpayload]

end Reply

end Request

section Serve

variable {σ : Type} (store : ChunkStore σ) {r : Request} {sock : Socket}

theorem recvPayload_eq_payload [Memory] (hlength : sock.bytes = r.rest) {size : UInt64}
    (hsize : size.toNat = r.size) : recvPayload size sock = r.payload := by
  have hread := (@Socket.recvExactly_eq (min · 4096) (fun n hn => by omega) size.toNat sock).1
  unfold recvPayload Request.payload
  rw [hsize] at hread ⊢
  simp only [hread, hlength, List.length_take]
  by_cases hle : r.size ≤ r.rest.length
  · simp [hle]
  · simp [hle, show ¬ min r.size r.rest.length = r.size by omega]

theorem extract_put {text : Bytes} (hid : r.id = (words text).headD [])
    (hlength : r.length = (words text)[1]?) :
    ∃ iss iss' size, IStream.getString ⟨text, false⟩ [] = (r.id, iss) ∧
      iss.getUInt64 0 = (size, iss') ∧ size.toNat = r.size := by
  obtain ⟨hfirst, hsecond⟩ := IStream.getString_getUInt64_words text
  refine ⟨_, ((IStream.getString ⟨text, false⟩ []).2.getUInt64 0).2,
    ((IStream.getString ⟨text, false⟩ []).2.getUInt64 0).1,
    Prod.ext (hfirst.trans hid.symm) rfl, rfl, ?_⟩
  rw [hsecond, Request.size, hlength]

theorem putChunk_eq [Memory] {text : Bytes} (hid : r.id = (words text).headD [])
    (hlength : r.length = (words text)[1]?) (hrest : sock.bytes = r.rest) (s : σ) :
    putChunk store ⟨text, false⟩ sock s = r.putReply (Request.stores store r.id) s := by
  obtain ⟨iss, iss', size, hfirst, hsecond, hsize⟩ := extract_put hid hlength
  simp only [putChunk, hfirst, hsecond, recvPayload_eq_payload hrest hsize, Request.putReply]
  rcases r.payload with e | (_ | data)
  · rfl
  · rfl
  · rcases hstored : store.storeChunk r.id data s with ⟨_ | _, s'⟩
    · have hfailed : Request.stores store r.id data s = (false, s') := by
        rw [Request.stores, hstored]
      simp only [hstored, hfailed]
      rfl
    · have hdone : Request.stores store r.id data s = (true, s') := by
        rw [Request.stores, hstored]
      simp only [hstored, hdone, ↓reduceIte]

theorem putManifest_eq [Memory] {text : Bytes} (hid : r.id = (words text).headD [])
    (hlength : r.length = (words text)[1]?) (hrest : sock.bytes = r.rest) (s : σ) :
    putManifest store ⟨text, false⟩ sock s = r.putReply (store.writeManifest r.id) s := by
  obtain ⟨iss, iss', size, hfirst, hsecond, hsize⟩ := extract_put hid hlength
  simp only [putManifest, hfirst, hsecond, recvPayload_eq_payload hrest hsize, Request.putReply]
  rcases r.payload with e | (_ | data)
  · rfl
  · rfl
  · rcases hwritten : store.writeManifest r.id data s with ⟨_ | _, s'⟩
    · simp only [hwritten]
      rfl
    · simp only [hwritten, ↓reduceIte]

theorem getChunk_eq {iss : IStream} (hid : (iss.getString []).1 = r.id) (s : σ) :
    getChunk store iss s =
      (Request.getReply (.ok (store.loadChunk r.id s).1.toOption), (store.loadChunk r.id s).2) := by
  simp only [getChunk, hid]
  rcases store.loadChunk r.id s with ⟨_ | _, s'⟩ <;> rfl

theorem getManifest_eq {iss : IStream} (hid : (iss.getString []).1 = r.id) (s : σ) :
    getManifest store iss s = (Request.getReply (store.readManifest r.id s), s) := by
  simp only [getManifest, hid]
  rcases store.readManifest r.id s with e | (_ | text) <;> rfl

/-- **The service answers the request its bytes say.** -/
theorem serve_eq [Memory] (sock : Socket) (s : σ) :
    serve store sock s = match Request.ofBytes sock.bytes with
      | none => (.ok [], s)
      | some r => r.reply store s := by
  obtain ⟨hline, hleft⟩ := recvLine_eq sock
  rcases hrecv : recvLine sock with ⟨got, sock'⟩
  rw [hrecv] at hline hleft
  simp only at hline hleft
  unfold serve Request.ofBytes
  rw [hrecv, hline]
  rcases hheader : headerLine sock.bytes with _ | line
  · rfl
  rw [hheader] at hleft
  have hrest : sock'.bytes = afterLine sock.bytes := (hleft rfl).1
  simp only [Option.map_some]
  rcases IStream.getString_words line with ⟨hwords, hread⟩ | ⟨cmd, text, -, hwords, hread⟩
  · -- a blank line has the empty command
    simp only [hread, hwords, Request.reply]
    rfl
  · have hid : ((words line)[1]?).getD [] = (words text).headD [] := by
      rw [hwords]
      cases words text <;> rfl
    have hlength : (words line)[2]? = (words text)[1]? := by rw [hwords]; rfl
    have hcmd : (words line).headD [] = cmd := by rw [hwords]; rfl
    generalize hr : (⟨(words line).headD [], ((words line)[1]?).getD [], (words line)[2]?,
      afterLine sock.bytes⟩ : Request) = r
    have hid' : r.id = (words text).headD [] := by rw [← hr]; exact hid
    have hlength' : r.length = (words text)[1]? := by rw [← hr]; exact hlength
    have hrest' : sock'.bytes = r.rest := by rw [← hr]; exact hrest
    have hcmd' : cmd = r.cmd := by rw [← hr]; exact hcmd.symm
    have hfirst : (IStream.getString ⟨text, false⟩ []).1 = r.id :=
      (IStream.getString_getUInt64_words text).1.trans hid'.symm
    simp only [hread, Request.reply, hcmd', putChunk_eq store hid' hlength' hrest',
      putManifest_eq store hid' hlength' hrest', getChunk_eq store hfirst,
      hasChunk, getManifest_eq store hfirst, hasManifest, hfirst]

end Serve

end PeerService

end DecentStore
