import DecentStore.Proof.ServedBytes

/-!
# When the line reader lets go

The reader counts the bytes it keeps, not the ones it reads, and it keeps no carriage return. So on
a connection that never ends it stops at a newline or after 8192 bytes that it kept, and a client
that sends carriage returns and nothing else holds it for ever. On a connection that ends it always
stops.
-/

namespace DecentStore

open Bytes

/-- The bytes of the stream before byte `n`, without the carriage returns. -/
def kept (stream : Nat → UInt8) (n : Nat) : Bytes :=
  ((List.range n).map stream).filter (· ≠ 13)

theorem kept_succ (stream : Nat → UInt8) (n : Nat) :
    kept stream (n + 1) =
      if stream n ≠ 13 then kept stream n ++ [stream n] else kept stream n := by
  unfold kept
  rw [List.range_succ, List.map_append, List.filter_append]
  by_cases hreturn : stream n = 13 <;> simp [hreturn]

section Stream

variable {stream : Nat → UInt8} {reader reader' : LineReader}

/-- The turn at a byte of an endless stream. -/
abbrev streamTurn (stream : Nat → UInt8) : LineReader → LineReader ⊕ (Option Bytes × Nat) :=
  recvLineTurn fun i => some (stream i)

theorem streamTurn_eq (hline : reader.line = kept stream reader.reads) :
    streamTurn stream reader =
      if stream reader.reads = 10 then .inr (some reader.line, reader.reads + 1)
      else if 8192 < (kept stream (reader.reads + 1)).length then .inr (none, reader.reads + 1)
      else .inl ⟨kept stream (reader.reads + 1), reader.reads + 1⟩ := by
  rw [kept_succ, ← hline]
  rfl

theorem streamTurn_goes (hline : reader.line = kept stream reader.reads)
    (hgoes : streamTurn stream reader = .inl reader') :
    stream reader.reads ≠ 10 ∧ (kept stream (reader.reads + 1)).length ≤ 8192 ∧
      reader'.reads = reader.reads + 1 ∧ reader'.line = kept stream reader'.reads := by
  rw [streamTurn_eq hline] at hgoes
  split at hgoes
  · cases hgoes
  · rename_i hnewline
    split at hgoes
    · cases hgoes
    · rename_i hshort
      cases hgoes
      exact ⟨hnewline, Nat.not_lt.mp hshort, rfl, rfl⟩

/-- **What a line is**: when the reader returns true it has read up to the first newline and no
further, and it returns what stands before, without the carriage returns. -/
theorem line_of_run {turns n : Nat} {line : Bytes}
    (hrun : Loop.run (streamTurn stream) turns {} = some (some line, n)) :
    ∃ k, n = k + 1 ∧ stream k = 10 ∧ (∀ i < k, stream i ≠ 10) ∧ line = kept stream k := by
  have hpost := @Loop.post_of_run _ _ (streamTurn stream) {} (some line, n)
    (fun reader => reader.line = kept stream reader.reads ∧
      ∀ i < reader.reads, stream i ≠ 10)
    (fun out => ∀ line ∈ out.1, ∃ k, out.2 = k + 1 ∧ stream k = 10 ∧
      (∀ i < k, stream i ≠ 10) ∧ line = kept stream k)
  refine hpost ?_ ?_ ⟨rfl, fun i hi => absurd hi (Nat.not_lt_zero i)⟩ hrun line rfl
  · intro reader reader' hreader hgoes
    obtain ⟨hnewline, -, hreads, hline⟩ := streamTurn_goes hreader.1 hgoes
    refine ⟨hline, fun i hi => ?_⟩
    rw [hreads, Nat.lt_succ_iff_lt_or_eq] at hi
    exact hi.elim (hreader.2 i) fun hlast => hlast ▸ hnewline
  · intro reader out hreader hstops
    rw [streamTurn_eq hreader.1] at hstops
    split at hstops
    · rename_i hnewline
      cases hstops
      rintro line ⟨⟩
      exact ⟨reader.reads, rfl, hnewline, hreader.2, hreader.1⟩
    · split at hstops
      · cases hstops
        rintro line ⟨⟩
      · cases hstops

/-- **The reader stops** at a newline or when it has kept too much, and only there. -/
theorem ends_iff : Loop.Ends (streamTurn stream) {} ↔
    ∃ n, stream n = 10 ∨ 8192 < (kept stream (n + 1)).length := by
  constructor
  · intro hends
    by_contra hnever
    refine Loop.not_ends_of_goes (fun reader : LineReader =>
      reader.line = kept stream reader.reads) ?_ rfl hends
    intro reader hline
    obtain ⟨hnewline, hshort⟩ := not_or.mp (not_exists.mp hnever reader.reads)
    rw [streamTurn_eq hline, if_neg hnewline, if_neg hshort]
    exact ⟨_, rfl, rfl⟩
  · rintro ⟨n, hstop⟩
    refine Loop.ends_of_measure (fun reader : LineReader =>
      reader.line = kept stream reader.reads ∧ reader.reads ≤ n)
      (fun reader => n + 1 - reader.reads) ?_ ⟨rfl, Nat.zero_le n⟩
    intro reader reader' hreader hgoes
    obtain ⟨hnewline, hshort, hreads, hline⟩ := streamTurn_goes hreader.1 hgoes
    have hne : reader.reads ≠ n := by
      intro hn
      rw [hn] at hnewline hshort
      exact hstop.elim hnewline fun hlong => absurd hshort (Nat.not_le.mpr hlong)
    have hle := hreader.2
    exact ⟨⟨hline, by omega⟩, by omega⟩

end Stream

theorem recvLineLoop_turns {bytes : Bytes} (turns : Nat) {line : Bytes} {n : Nat} {sock : Socket}
    (hbytes : sock.bytes = bytes.drop n) :
    (recvLineLoop turns line sock).1 =
      (Loop.run (recvLineTurn (bytes[·]?)) turns ⟨line, n⟩).bind Prod.fst := by
  induction turns generalizing line n sock with
  | zero => rfl
  | succ turns ih =>
      rcases hrecv : sock.recv 1 with ⟨got, sock'⟩
      by_cases hn : bytes.length ≤ n
      · have hnil : sock.bytes = [] := hbytes.trans (List.drop_eq_nil_of_le hn)
        have hgot := (Socket.recv_nil 1 hnil).1
        have hturn : recvLineTurn (bytes[·]?) ⟨line, n⟩ = .inr (none, n) := by
          simp only [recvLineTurn, List.getElem?_eq_none hn]
        rw [hrecv] at hgot
        simp only at hgot
        rw [recvLineLoop, hrecv, hgot, Loop.run_of_inr hturn]
        rfl
      · have hlt : n < bytes.length := Nat.not_le.mp hn
        have hcons : sock.bytes = bytes[n] :: bytes.drop (n + 1) :=
          hbytes.trans (List.drop_eq_getElem_cons hlt)
        obtain ⟨hgot, hleft⟩ := recv_one hcons
        rw [hrecv] at hgot hleft
        simp only at hgot hleft
        rw [recvLineLoop, hrecv, hgot, Loop.run]
        simp only [recvLineTurn, List.getElem?_eq_getElem hlt]
        by_cases hnewline : bytes[n] = 10
        · simp only [if_pos hnewline]
          rfl
        · simp only [if_neg hnewline]
          by_cases hlong : 8192 < (if bytes[n] ≠ 13 then line ++ [bytes[n]] else line).length
          · simp only [if_pos hlong]
            rfl
          · simp only [if_neg hlong]
            exact ih hleft.1

/-- The reader of a connection with an end is the loop, turn by turn. -/
theorem recvLine_turns (sock : Socket) :
    (recvLine sock).1 = (Loop.run (recvLineTurn (sock.bytes[·]?))
      (sock.bytes.length + 1) {}).bind Prod.fst :=
  recvLineLoop_turns _ rfl

theorem recvLine_ends (sock : Socket) : Loop.Ends (recvLineTurn (sock.bytes[·]?)) {} := by
  refine Loop.ends_of_measure (fun reader => reader.reads ≤ sock.bytes.length)
    (fun reader => sock.bytes.length - reader.reads) ?_ (Nat.zero_le _)
  intro reader reader' hle hgoes
  unfold recvLineTurn at hgoes
  split at hgoes
  · cases hgoes
  · rename_i ch hch
    have hlt := (List.getElem?_eq_some_iff.mp hch).1
    dsimp only at hgoes
    generalize (if ch ≠ 13 then reader.line ++ [ch] else reader.line) = line at hgoes
    split at hgoes
    · cases hgoes
    · split at hgoes
      · cases hgoes
      · cases hgoes
        exact ⟨hlt, by dsimp only; omega⟩

/-- The reader stops on the stream, and when it returns true it has read up to the first newline
and no further. -/
structure LetsGo (stream : Nat → UInt8) : Prop where
  ends : Loop.Ends (streamTurn stream) {}
  consumed : ∀ turns line n, Loop.run (streamTurn stream) turns {} = some (some line, n) →
    ∃ k, n = k + 1 ∧ stream k = 10 ∧ ∀ i < k, stream i ≠ 10

/-- **When the reader lets go of a client**: what it reads up to a newline is right on every stream,
and it stops exactly on those with a newline or with more than 8192 bytes it keeps. -/
theorem lets_go_iff (stream : Nat → UInt8) :
    LetsGo stream ↔ ∃ n, stream n = 10 ∨ 8192 < (kept stream (n + 1)).length := by
  refine ⟨fun hgo => ends_iff.mp hgo.ends, fun hstop => ⟨ends_iff.mpr hstop, ?_⟩⟩
  intro turns line n hrun
  obtain ⟨k, hn, hnewline, hfirst, -⟩ := line_of_run hrun
  exact ⟨k, hn, hnewline, hfirst⟩

/-- Carriage returns hold the reader for ever. -/
theorem carriage_returns_never_end : ¬ ∀ stream, LetsGo stream := by
  intro hall
  obtain ⟨n, hstop⟩ := ends_iff.mp (hall fun _ => 13).ends
  have hnone : kept (fun _ => 13) (n + 1) = [] := by simp [kept]
  rw [hnone] at hstop
  exact hstop.elim (by decide) (Nat.not_lt_zero _)

end DecentStore
