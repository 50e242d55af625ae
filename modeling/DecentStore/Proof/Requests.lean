import DecentStore.PeerClient
import DecentStore.Proof.HexText
import DecentStore.Proof.ServedBytes

/-!
# Requests and replies

What a client of the repository writes is read by the service as it was meant, and the service's
replies are read back by the client, however the network cuts the bytes into segments. An id is any
word that leaves room on the line, in particular 64 hex digits, and a payload is no longer than a
vector can be.
-/

namespace DecentStore

open Bytes Interaction

/-- A handler sees what this throws. -/
def Catchable {α : Type} (r : Except Exc α) : Prop := ∀ e, r = .error e → e.caught = true

namespace Catchable

variable {α β : Type}

theorem ok (a : α) : Catchable (.ok a : Except Exc α) := fun _ he => by cases he

theorem error {e : Exc} (he : e.caught = true) : Catchable (.error e : Except Exc α) := by
  rintro e' he'
  cases he'
  exact he

theorem bind {r : Except Exc α} {f : α → Except Exc β} (hr : Catchable r)
    (hf : ∀ a, Catchable (f a)) : Catchable (r >>= f) := by
  cases r with
  | ok a => exact hf a
  | error e => exact error (hr e rfl)

theorem handled {r : Except Exc α} (hr : Catchable r) (a : α) :
    ∃ b, Prog.handled Exc.caught a r = .ok b := by
  cases r with
  | ok b => exact ⟨b, rfl⟩
  | error e => exact ⟨a, if_pos (hr e rfl)⟩

end Catchable

/-- The exchange comes to an end: the client has an answer, or an exception that handlers see. -/
def Exchange.Ends : Exchange → Prop
  | .refused e => e.caught = true
  | .sendFailed e => e.caught = true
  | .brokenPipe => False
  | .silent => False
  | .answered _ => True

theorem recvAllText_catchable (sock : Socket) : Catchable (recvAllText sock) := by
  unfold recvAllText
  dsimp only
  split
  · exact .ok _
  · exact .ok _
  · exact .error rfl

/-- A line as `recv_line` returns it. -/
def PlainLine (line : Bytes) : Prop := line.length ≤ 8192 ∧ ∀ b ∈ line, b ≠ 10 ∧ b ≠ 13

theorem headerLine_chars {line : Bytes} (hline : ∀ b ∈ line, b ≠ 10 ∧ b ≠ 13) (rest : Bytes) :
    headerLine (line ++ 10 :: rest) = (if line.length ≤ 8192 then some line else none) ∧
      afterLine (line ++ 10 :: rest) = rest := by
  obtain ⟨htake, hdrop⟩ := @IStream.takeWhile_run line (10 :: rest) (!isNewline ·)
    (fun b hb => by simpa [isNewline] using (hline b hb).1)
    (fun b hb => by simp only [List.head?_cons, Option.mem_some_iff] at hb; subst hb; rfl)
  have hkept : line.filter (· ≠ 13) = line :=
    List.filter_eq_self.mpr fun b hb => by simpa using (hline b hb).2
  have hnewline : newline ∈ line ++ 10 :: rest := List.mem_append_right _ List.mem_cons_self
  refine ⟨?_, by rw [afterLine, hdrop, List.tail_cons]⟩
  simp only [headerLine, lineFrom, htake, hkept, List.nil_append, hnewline, true_and]

theorem headerLine_plain {line : Bytes} (hline : PlainLine line) (rest : Bytes) :
    headerLine (line ++ 10 :: rest) = some line ∧ afterLine (line ++ 10 :: rest) = rest := by
  obtain ⟨hheader, hafter⟩ := headerLine_chars hline.2 rest
  rw [if_pos hline.1] at hheader
  exact ⟨hheader, hafter⟩

theorem recvLine_line {line rest : Bytes} (hline : PlainLine line) {sock : Socket}
    (hbytes : sock.bytes = line ++ 10 :: rest) :
    (recvLine sock).1 = some line ∧ sock.Left rest (recvLine sock).2 := by
  obtain ⟨hread, hleft⟩ := recvLine_eq sock
  obtain ⟨hheader, hafter⟩ := headerLine_plain hline rest
  rw [hbytes, hheader] at hread hleft
  rw [hafter] at hleft
  exact ⟨hread, hleft rfl⟩

theorem plain_of_token {tok : Bytes} (htok : Token tok) : ∀ b ∈ tok, b ≠ 10 ∧ b ≠ 13 := by
  intro b hb
  have hspace := htok.2 b hb
  constructor <;> rintro rfl <;> exact absurd hspace (by decide)

theorem plain_of_words {tok text : Bytes} (htok : Token tok) (htext : ∀ b ∈ text, b ≠ 10 ∧ b ≠ 13) :
    ∀ b ∈ tok ++ 32 :: text, b ≠ 10 ∧ b ≠ 13 := by
  intro b hb
  rcases List.mem_append.mp hb with hb | hb
  · exact plain_of_token htok b hb
  · rcases List.mem_cons.mp hb with rfl | hb
    · decide
    · exact htext b hb

theorem words_cons {tok : Bytes} (htok : Token tok) (text : Bytes) :
    words (tok ++ 32 :: text) = tok :: words text := by
  rw [words_token htok (IStream.atBreak_cons (by decide) _), words_space (by decide)]

theorem words_singleton {tok : Bytes} (htok : Token tok) : words tok = [tok] := by
  have hwords := words_token htok IStream.atBreak_nil
  rwa [List.append_nil] at hwords

theorem length_decimal_le {n : Nat} (hn : n < 2 ^ 64) : (decimal n).length ≤ 20 := by
  unfold decimal
  split
  · simp
  · rw [List.length_map, List.length_reverse]
    exact (Nat.digits_length_le_iff (by decide) n).mpr (lt_trans hn (by decide))

theorem numberOf_decimal {n : Nat} (hn : n < 2 ^ 64) : numberOf (decimal n) = UInt64.ofNat n := by
  have hsize : (UInt64.ofNat n).toNat = n := UInt64.toNat_ofNat_of_lt' hn
  have hread := IStream.getUInt64_decimal (UInt64.ofNat n) IStream.atBreak_nil 0
  have hword := IStream.getUInt64_words (decimal n) 0
  rw [List.append_nil, hsize] at hread
  rw [hread, words_singleton (decimal_token n)] at hword
  exact hword.symm

theorem getUInt64_size {n : Nat} (hn : n < 2 ^ 64) :
    (IStream.getUInt64 ⟨32 :: decimal n, false⟩ 0).1 = UInt64.ofNat n := by
  rw [IStream.getUInt64_words, words_space (by decide), words_singleton (decimal_token n)]
  exact numberOf_decimal hn

namespace PeerClient

/-- The line of a request: a command and an id, and for a `PUT` the size. -/
def getLine (cmd id : Bytes) : Bytes := cmd ++ 32 :: id

def putLine (cmd id data : Bytes) : Bytes := cmd ++ 32 :: (id ++ 32 :: decimal data.length)

variable {cmd id data : Bytes}

theorem getRequest_eq (cmd id : Bytes) : getRequest cmd id = getLine cmd id ++ 10 :: [] := by
  simp [getRequest, getLine, str_space, str_newline]

theorem putRequest_eq (cmd id data : Bytes) :
    putRequest cmd id data = putLine cmd id data ++ 10 :: data := by
  simp [putRequest, putLine, str_space, str_newline]

theorem length_getLine_le (hlen : cmd.length ≤ 20) (hid : IsHashHex id) :
    (getLine cmd id).length ≤ 8192 := by
  rw [getLine, List.length_append, List.length_cons, hid.1]
  omega

theorem length_putLine_le (hlen : cmd.length ≤ 20) (hid : IsHashHex id)
    (hdata : data.length < 2 ^ 64) : (putLine cmd id data).length ≤ 8192 := by
  have hdigits := length_decimal_le hdata
  rw [putLine, List.length_append, List.length_cons, List.length_append, List.length_cons, hid.1]
  omega

end PeerClient

namespace PeerService

open PeerClient

variable {σ : Type} (store : ChunkStore σ) {sock : Socket} {cmd id data : Bytes} (s : σ)

theorem ofBytes_getRequest (hcmd : Token cmd) (hid : Token id)
    (hlen : (getLine cmd id).length ≤ 8192) :
    Request.ofBytes (getRequest cmd id) = some ⟨cmd, id, none, []⟩ := by
  have hplain : PlainLine (getLine cmd id) :=
    ⟨hlen, plain_of_words hcmd (plain_of_token hid)⟩
  obtain ⟨hheader, hafter⟩ := headerLine_plain hplain []
  have hwords : words (getLine cmd id) = [cmd, id] := by
    rw [getLine, words_cons hcmd, words_singleton hid]
  rw [getRequest_eq, Request.ofBytes, hheader, hafter, Option.map_some, hwords]
  rfl

theorem ofBytes_putRequest (hcmd : Token cmd) (hid : Token id)
    (hlen : (putLine cmd id data).length ≤ 8192) :
    Request.ofBytes (putRequest cmd id data) =
      some ⟨cmd, id, some (decimal data.length), data⟩ := by
  have hplain : PlainLine (putLine cmd id data) :=
    ⟨hlen, plain_of_words hcmd (plain_of_words hid (plain_of_token (decimal_token _)))⟩
  obtain ⟨hheader, hafter⟩ := headerLine_plain hplain data
  have hwords : words (putLine cmd id data) = [cmd, id, decimal data.length] := by
    rw [putLine, words_cons hcmd, words_cons hid, words_singleton (decimal_token _)]
  rw [putRequest_eq, Request.ofBytes, hheader, hafter, Option.map_some, hwords]
  rfl

theorem payload_put (hdata : data.length ≤ maxSize) :
    Request.payload ⟨cmd, id, some (decimal data.length), data⟩ = .ok (some data) := by
  have hlt : data.length < 2 ^ 64 := lt_of_le_of_lt hdata (by decide)
  have hsize : Request.size ⟨cmd, id, some (decimal data.length), data⟩ = data.length := by
    rw [Request.size, Option.map_some, Option.getD_some, numberOf_decimal hlt]
    exact UInt64.toNat_ofNat_of_lt' hlt
  rw [Request.payload, hsize, allocate_ok _ (allocates_ample.mpr hdata), if_pos (le_refl _),
    List.take_length]
  rfl

theorem serve_get (hcmd : Token cmd) (hid : Token id) (hlen : (getLine cmd id).length ≤ 8192)
    (hbytes : sock.bytes = getRequest cmd id) :
    serve store sock s = Request.reply store ⟨cmd, id, none, []⟩ s := by
  rw [serve_eq, hbytes, ofBytes_getRequest hcmd hid hlen]

theorem serve_put (hcmd : Token cmd) (hid : Token id) (hlen : (putLine cmd id data).length ≤ 8192)
    (hbytes : sock.bytes = putRequest cmd id data) :
    serve store sock s =
      Request.reply store ⟨cmd, id, some (decimal data.length), data⟩ s := by
  rw [serve_eq, hbytes, ofBytes_putRequest hcmd hid hlen]

theorem serve_putChunk (hid : IsHashHex id) (hdata : data.length ≤ maxSize)
    (hbytes : sock.bytes = putRequest (str "PUT_CHUNK") id data) :
    serve store sock s = match store.storeChunk id data s with
      | (.ok (), s) => (.ok ok, s)
      | (.error _, s) => (.ok err, s) := by
  have hlen := @length_putLine_le (str "PUT_CHUNK") id data (by decide) hid
    (lt_of_le_of_lt hdata (by decide))
  rw [serve_put store s (by decide) hid.token hlen hbytes]
  rw [Request.reply_putChunk store rfl, Request.putReply_of_payload (payload_put hdata)]
  rcases hstored : store.storeChunk id data s with ⟨_ | _, s'⟩
  · simp only [Request.stores, hstored]
    rfl
  · simp only [Request.stores, hstored, ↓reduceIte]

theorem serve_getChunk (hid : IsHashHex id)
    (hbytes : sock.bytes = getRequest (str "GET_CHUNK") id) :
    serve store sock s = match store.loadChunk id s with
      | (.ok data, s) => (.ok (okPayload data), s)
      | (.error _, s) => (.ok err, s) := by
  rw [serve_get store s (by decide) hid.token (length_getLine_le (by decide) hid) hbytes]
  rw [Request.reply_getChunk store rfl]
  rcases store.loadChunk id s with ⟨_ | _, s'⟩ <;> rfl

theorem serve_hasChunk (hid : IsHashHex id)
    (hbytes : sock.bytes = getRequest (str "HAS_CHUNK") id) :
    serve store sock s = (.ok (if store.hasChunk id s then ok else err), s) := by
  rw [serve_get store s (by decide) hid.token (length_getLine_le (by decide) hid) hbytes,
    Request.reply_hasChunk store rfl]

theorem serve_putManifest (hid : IsHashHex id) (hdata : data.length ≤ maxSize)
    (hbytes : sock.bytes = putRequest (str "PUT_MANIFEST") id data) :
    serve store sock s = match store.writeManifest id data s with
      | (true, s) => (.ok ok, s)
      | (false, s) => (.ok err, s) := by
  have hlen := @length_putLine_le (str "PUT_MANIFEST") id data (by decide) hid
    (lt_of_le_of_lt hdata (by decide))
  rw [serve_put store s (by decide) hid.token hlen hbytes]
  rw [Request.reply_putManifest store rfl, Request.putReply_of_payload (payload_put hdata)]
  rcases store.writeManifest id data s with ⟨_ | _, s'⟩ <;> rfl

theorem serve_getManifest (hid : IsHashHex id)
    (hbytes : sock.bytes = getRequest (str "GET_MANIFEST") id) :
    serve store sock s = match store.readManifest id s with
      | .error e => (.error e, s)
      | .ok (some text) => (.ok (okPayload text), s)
      | .ok none => (.ok err, s) := by
  rw [serve_get store s (by decide) hid.token (length_getLine_le (by decide) hid) hbytes]
  rw [Request.reply_getManifest store rfl]
  rcases store.readManifest id s with e | (_ | text) <;> rfl

end PeerService

namespace PeerClient

variable {sock : Socket} {cmd : Bytes} {most : Nat} {tooLong : Exc}

theorem recvAllText_closed (hending : sock.ending = .closed) :
    recvAllText sock = .ok sock.bytes := by
  obtain ⟨hread, hleft⟩ := @Socket.recvRest_eq 4096 (by decide) (sock.bytes.length + 1) sock
    (Nat.le_succ _)
  have hend : (sock.recvRest 4096 (sock.bytes.length + 1)).2.ending = .closed :=
    hleft.2.trans hending
  simp only [recvAllText, hread, hend]

theorem saysOk_ok : saysOk PeerService.ok = true := by decide

theorem recvLine_ok (hbytes : sock.bytes = PeerService.ok) : (recvLine sock).1 = some (str "OK") :=
  (@recvLine_line (str "OK") [] ⟨by decide, by decide⟩ sock (hbytes.trans (by decide))).1

theorem recvLine_err (hbytes : sock.bytes = PeerService.err) :
    (recvLine sock).1 = some (str "ERR") :=
  (@recvLine_line (str "ERR") [] ⟨by decide, by decide⟩ sock (hbytes.trans (by decide))).1

/-- Reading the payload of a good reply, whatever follows it. -/
theorem readReply_okPayload {data extra : Bytes} (hdata : data.length ≤ most)
    (hmost : most < 2 ^ 64) (hbytes : sock.bytes = PeerService.okPayload data ++ extra) :
    readReply cmd most tooLong sock = .ok data := by
  have hlt : data.length < 2 ^ 64 := lt_of_le_of_lt hdata hmost
  have hsize : (UInt64.ofNat data.length).toNat = data.length := UInt64.toNat_ofNat_of_lt' hlt
  have hreply : sock.bytes = (str "OK" ++ 32 :: decimal data.length) ++ 10 :: (data ++ extra) := by
    have hok : str "OK " = str "OK" ++ [32] := by decide
    simp [hbytes, PeerService.okPayload, hok, str_newline]
  have hplain : PlainLine (str "OK" ++ 32 :: decimal data.length) := by
    have hdigits := length_decimal_le hlt
    have hok : (str "OK").length = 2 := by decide
    refine ⟨?_, plain_of_words (by decide) (plain_of_token (decimal_token _))⟩
    rw [List.length_append, List.length_cons, hok]
    omega
  obtain ⟨hline, hleft⟩ := recvLine_line hplain hreply
  have hstatus := @IStream.getString_token (str "OK") (32 :: decimal data.length) (by decide)
    (IStream.atBreak_cons (by decide) _) []
  have hread := (@Socket.recvExactly_eq id (fun n hn => ⟨hn, le_refl n⟩) data.length
    (recvLine sock).2).1
  rw [hleft.1, List.take_left' rfl] at hread
  have hrecv : recvLine sock = (some (str "OK" ++ 32 :: decimal data.length), (recvLine sock).2) :=
    Prod.ext hline rfl
  rw [readReply, hrecv]
  simp only [hstatus, ne_eq, not_true_eq_false, ↓reduceIte, getUInt64_size hlt, hsize,
    allocate_ok _ (allocates_ample.mpr hdata), hread]
  rfl

theorem readReply_catchable (cmd : Bytes) (most : Nat) {tooLong : Exc}
    (hlong : tooLong.caught = true) (sock : Socket) :
    Catchable (readReply cmd most tooLong sock) := by
  unfold readReply
  split
  · exact .error rfl
  · dsimp only
    split
    · exact .error rfl
    · refine .bind ?_ fun _ => ?_
      · unfold allocate
        split
        · exact .error hlong
        · split
          · exact .ok _
          · exact .error rfl
      · split
        · exact .error rfl
        · exact .ok _

theorem readReply_err (hbytes : sock.bytes = PeerService.err) :
    ∃ e, readReply cmd most tooLong sock = .error e := by
  have hrecv : recvLine sock = (some (str "ERR"), (recvLine sock).2) :=
    Prod.ext (recvLine_err hbytes) rfl
  have hstatus := @IStream.getString_token (str "ERR") [] (by decide) IStream.atBreak_nil []
  rw [List.append_nil] at hstatus
  have hne : str "ERR" ≠ str "OK" := by decide
  refine ⟨failure (str "Peer returned non-OK for " ++ cmd), ?_⟩
  rw [readReply, hrecv]
  simp only [hstatus, hne, ne_eq, not_false_eq_true, ↓reduceIte]

end PeerClient

end DecentStore
