import DecentStore.Lib.Bytes

/-!
# A stream socket

What a socket will still deliver is a sequence of bytes and the way it ends. How the bytes are cut
into segments is up to the network, so a `send` takes some of what it is given and a `recv` returns
some of what it asks for; the lemmas say that the loops do not depend on the cuts.
-/

open Bytes

/-- What a `recv` meets after the last byte. -/
inductive Ending where
  | closed
  | timedOut
  | failed (reason : Bytes)

/-- `cuts` are the sizes of the next segments; when they are used up the rest comes at once. -/
structure Socket where
  bytes : Bytes
  cuts : List Nat := []
  ending : Ending := .closed

namespace Socket

/-- `recv` of at most `want` bytes. No bytes stand for the result 0 or -1. -/
def recv (want : Nat) (sock : Socket) : Bytes × Socket :=
  let n := match sock.cuts with
    | [] => want
    | cut :: _ => min want (max 1 cut)
  (sock.bytes.take n, { sock with bytes := sock.bytes.drop n, cuts := sock.cuts.tail })

/-- The loop `while (remaining > 0)`, where `ask` says how much each `recv` asks for. -/
def recvLoop (ask : Nat → Nat) : Nat → Nat → Socket → Bytes × Socket
  | 0, _, sock => ([], sock)
  | turns + 1, remaining, sock =>
      if remaining = 0 then ([], sock)
      else match sock.recv (ask remaining) with
        | ([], sock) => ([], sock)
        | (got, sock) =>
            let (more, sock) := recvLoop ask turns (remaining - got.length) sock
            (got ++ more, sock)

/-- Read `size` bytes, or as many as there are. Every turn gets one, so `size` turns do. -/
def recvExactly (ask : Nat → Nat) (size : Nat) (sock : Socket) : Bytes × Socket :=
  recvLoop ask size size sock

/-- Read until nothing comes. -/
def recvRest (want : Nat) : Nat → Socket → Bytes × Socket
  | 0, sock => ([], sock)
  | turns + 1, sock =>
      match sock.recv want with
      | ([], sock) => ([], sock)
      | (got, sock) =>
          let (more, sock) := recvRest want turns sock
          (got ++ more, sock)

/-- The loop `while (len > 0)` around `send`: what the calls take, one after the other. Every turn
takes at least one byte. -/
def sendLoop : Nat → List Nat → Bytes → List Bytes
  | 0, _, _ => []
  | turns + 1, cuts, data =>
      if data = [] then []
      else
        let n := match cuts with
          | [] => data.length
          | cut :: _ => max 1 cut
        data.take n :: sendLoop turns cuts.tail (data.drop n)

/-- What the other end will receive of the data. -/
def sent (cuts : List Nat) (data : Bytes) : Bytes := (sendLoop data.length cuts data).flatten

/-- **The loop sends the bytes, however it is cut.** -/
theorem flatten_sendLoop (turns : Nat) (cuts : List Nat) (data : Bytes)
    (hturns : data.length ≤ turns) : (sendLoop turns cuts data).flatten = data := by
  induction turns generalizing cuts data with
  | zero => exact (List.eq_nil_of_length_eq_zero (Nat.le_zero.mp hturns)).symm
  | succ turns ih =>
      unfold sendLoop
      by_cases hnil : data = []
      · rw [if_pos hnil, hnil]
        rfl
      rw [if_neg hnil, List.flatten_cons]
      have hlen : 0 < data.length := List.length_pos_iff.mpr hnil
      have hpos : 0 < match cuts with
          | [] => data.length
          | cut :: _ => max 1 cut := by
        cases cuts with
        | nil => exact hlen
        | cons cut cuts => exact Nat.lt_of_lt_of_le Nat.one_pos (Nat.le_max_left 1 cut)
      rw [ih _ _ (by rw [List.length_drop]; omega), List.take_append_drop]

@[simp]
theorem sent_eq (cuts : List Nat) (data : Bytes) : sent cuts data = data :=
  flatten_sendLoop data.length cuts data (le_refl _)

/-- The same bytes are left, up to the cuts. -/
def Left (sock : Socket) (rest : Bytes) (sock' : Socket) : Prop :=
  sock'.bytes = rest ∧ sock'.ending = sock.ending

theorem recv_nil (want : Nat) {sock : Socket} (hbytes : sock.bytes = []) :
    (sock.recv want).1 = [] ∧ sock.Left [] (sock.recv want).2 := by
  simp [recv, Left, hbytes]

theorem recv_some {want : Nat} {sock : Socket} (hwant : 0 < want) (hbytes : sock.bytes ≠ []) :
    ∃ n, 0 < n ∧ n ≤ want ∧ (sock.recv want).1 = sock.bytes.take n ∧
      (sock.recv want).1.length = n ∧ sock.Left (sock.bytes.drop n) (sock.recv want).2 := by
  have hlen : 0 < sock.bytes.length := List.length_pos_iff.mpr hbytes
  have hcut : ∃ n, 0 < n ∧ n ≤ want ∧ (sock.recv want).1 = sock.bytes.take n ∧
      sock.Left (sock.bytes.drop n) (sock.recv want).2 := by
    unfold recv
    cases sock.cuts with
    | nil => exact ⟨want, hwant, le_refl _, rfl, rfl, rfl⟩
    | cons cut cuts => exact ⟨min want (max 1 cut), by omega, by omega, rfl, rfl, rfl⟩
  obtain ⟨n, hpos, hle, htake, hleft⟩ := hcut
  by_cases hn : n ≤ sock.bytes.length
  · exact ⟨n, hpos, hle, htake, by rw [htake, List.length_take, Nat.min_eq_left hn], hleft⟩
  · rw [List.take_of_length_le (by omega)] at htake
    rw [List.drop_of_length_le (by omega), ← List.drop_length] at hleft
    exact ⟨sock.bytes.length, hlen, by omega, by rw [htake, List.take_length], by rw [htake], hleft⟩

/-- **The loop gets the bytes, however they are cut.** -/
theorem recvLoop_eq {ask : Nat → Nat} (hask : ∀ n, 0 < n → 0 < ask n ∧ ask n ≤ n)
    (turns remaining : Nat) (hturns : remaining ≤ turns) (sock : Socket) :
    (recvLoop ask turns remaining sock).1 = sock.bytes.take remaining ∧
      sock.Left (sock.bytes.drop remaining) (recvLoop ask turns remaining sock).2 := by
  induction turns generalizing remaining sock with
  | zero =>
      rw [Nat.le_zero.mp hturns]
      exact ⟨rfl, rfl, rfl⟩
  | succ turns ih =>
      unfold recvLoop
      by_cases hzero : remaining = 0
      · rw [if_pos hzero, hzero]
        exact ⟨rfl, rfl, rfl⟩
      rw [if_neg hzero]
      obtain ⟨hpos, hle⟩ := hask remaining (Nat.pos_of_ne_zero hzero)
      rcases hrecv : sock.recv (ask remaining) with ⟨got, sock'⟩
      by_cases hbytes : sock.bytes = []
      · obtain ⟨hgot, hleft⟩ := recv_nil (ask remaining) hbytes
        rw [hrecv] at hgot hleft
        simp only at hgot
        rw [hgot, hbytes, List.take_nil, List.drop_nil]
        exact ⟨rfl, hleft⟩
      · obtain ⟨n, hn, hnask, hgot, hlength, hleft⟩ := recv_some hpos hbytes
        rw [hrecv] at hgot hlength hleft
        simp only at hgot hlength
        obtain ⟨b, bs, hbs⟩ := List.exists_cons_of_length_pos (hlength ▸ hn)
        obtain ⟨hmore, hrest⟩ := ih (remaining - got.length) (by omega) sock'
        rw [hbs] at hmore hrest hlength ⊢
        rw [hlength] at hmore hrest
        have hsum : n + (remaining - n) = remaining := by omega
        simp only [hlength]
        refine ⟨?_, ?_, hrest.2.trans hleft.2⟩
        · rw [hmore, hleft.1, ← hbs, hgot, ← List.take_add, hsum]
        · rw [hrest.1, hleft.1, List.drop_drop, hsum]

theorem recvExactly_eq {ask : Nat → Nat} (hask : ∀ n, 0 < n → 0 < ask n ∧ ask n ≤ n) (size : Nat)
    (sock : Socket) :
    (recvExactly ask size sock).1 = sock.bytes.take size ∧
      sock.Left (sock.bytes.drop size) (recvExactly ask size sock).2 :=
  recvLoop_eq hask size size (le_refl _) sock

theorem recvRest_eq {want : Nat} (hwant : 0 < want) (turns : Nat) (sock : Socket)
    (hturns : sock.bytes.length ≤ turns) :
    (recvRest want turns sock).1 = sock.bytes ∧ sock.Left [] (recvRest want turns sock).2 := by
  induction turns generalizing sock with
  | zero =>
      have hnil : sock.bytes = [] := List.eq_nil_of_length_eq_zero (Nat.le_zero.mp hturns)
      rw [recvRest, hnil]
      exact ⟨rfl, hnil, rfl⟩
  | succ turns ih =>
      unfold recvRest
      rcases hrecv : sock.recv want with ⟨got, sock'⟩
      by_cases hbytes : sock.bytes = []
      · obtain ⟨hgot, hleft⟩ := recv_nil want hbytes
        rw [hrecv] at hgot hleft
        simp only at hgot
        rw [hgot, hbytes]
        exact ⟨rfl, hleft⟩
      · obtain ⟨n, hn, -, hgot, hlength, hleft⟩ := recv_some hwant hbytes
        rw [hrecv] at hgot hlength hleft
        simp only at hgot hlength
        obtain ⟨b, bs, hbs⟩ := List.exists_cons_of_length_pos (hlength ▸ hn)
        obtain ⟨hmore, hrest⟩ := ih sock' (by rw [hleft.1, List.length_drop]; omega)
        rw [hbs]
        simp only
        refine ⟨?_, hrest.1, hrest.2.trans hleft.2⟩
        rw [hmore, hleft.1, ← hbs, hgot, List.take_append_drop]

end Socket
