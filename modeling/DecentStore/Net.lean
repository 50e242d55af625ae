import DecentStore.Basic
import DecentStore.Lib.Loop
import DecentStore.Lib.Socket

/-!
# Reading from a connection

`core/net/tcp`, the receiving side. What is sent always goes out whole or the connection is given
up, so a request and a reply are byte strings.
-/

namespace DecentStore

open Bytes

/-- The loop of `recv_line`, one byte at a time: carriage returns are dropped, and a line of more
than 8192 bytes is given up. -/
def recvLineLoop : Nat → Bytes → Socket → Option Bytes × Socket
  | 0, _, sock => (none, sock)
  | turns + 1, line, sock =>
      match sock.recv 1 with
      | ([], sock) => (none, sock)
      | (ch :: _, sock) =>
          if ch = 10 then (some line, sock)
          else
            let line := if ch ≠ 13 then line ++ [ch] else line
            if 8192 < line.length then (none, sock) else recvLineLoop turns line sock

def recvLine (sock : Socket) : Option Bytes × Socket :=
  recvLineLoop (sock.bytes.length + 1) [] sock

/-! ### A line that need not come -/

/-- `out_line`, and how many bytes were received. -/
structure LineReader where
  line : Bytes := []
  reads : Nat := 0

/-- One turn of `recv_line` on a connection that may go on for ever: `recv i` is the byte number
`i`, if `recv` gives one there. A result has the line, if it is returned true. -/
def recvLineTurn (recv : Nat → Option UInt8) (reader : LineReader) :
    LineReader ⊕ (Option Bytes × Nat) :=
  match recv reader.reads with
  | none => .inr (none, reader.reads)
  | some ch =>
      if ch = 10 then .inr (some reader.line, reader.reads + 1)
      else
        let line := if ch ≠ 13 then reader.line ++ [ch] else reader.line
        if 8192 < line.length then .inr (none, reader.reads + 1)
        else .inl { line := line, reads := reader.reads + 1 }

/-- Everything until the peer closes; a timeout ends the text, another error throws. -/
def recvAllText (sock : Socket) : Except Exc Bytes :=
  let (out, sock) := sock.recvRest 4096 (sock.bytes.length + 1)
  match sock.ending with
  | .closed => .ok out
  | .timedOut => .ok out
  | .failed reason => .error (.runtimeError (str "recv: " ++ reason))

end DecentStore
