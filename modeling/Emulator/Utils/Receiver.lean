import Emulator.Base

/-!
# `p2p.Receiver`

A connection brings lines, each an envelope in JSON that a `Sender` has ended with a newline. The
handler reads a line in every turn of its loop, hands well-formed envelopes to the reactor of their
channel, and should return when the connection ends.

A turn in which nothing could be read is skipped before its error is looked at. A connection that
ends right after a newline, as every connection of a `Sender` does, is therefore read for ever.

* `turn_line`, `turn_tail` — the turns on a terminated line and on what follows the last newline.
* `handleConnection_iff` — every envelope is delivered once and in order, and the handler returns if
  and only if bytes are left behind the last newline.

`r.ctx` is `context.Background()`, which is never done; `json.Unmarshal` is a parameter.
-/

namespace Emulator.P2p

structure Envelop where
  channelId : UInt8
  message : Bytes
  messageType : UInt32
  deriving DecidableEq, Repr

/-- How the connection ends: every read from then on returns the error. -/
inductive ReadError
  | eof
  | other
  deriving DecidableEq, Repr

def newline : UInt8 := 10

/-- What `ReadBytes('\n')` returns, and the bytes that are left. -/
def readBytes (err : ReadError) : Bytes → (Bytes × Option ReadError) × Bytes
  | [] => (([], some err), [])
  | b :: stream =>
    if b = newline then (([b], none), stream)
    else (((b :: (readBytes err stream).1.1), (readBytes err stream).1.2), (readBytes err stream).2)

structure Delivery (ρ : Type) where
  reactor : ρ
  chID : UInt8
  message : Bytes
  messageType : UInt32
  deriving DecidableEq, Repr

/-- `Receiver`, with the reactors of its channels. -/
structure Receiver (ρ : Type) where
  channelMap : UInt8 → Option ρ
  unmarshal : Bytes → Option Envelop

/-- A connection: the bytes that were not read yet, and the calls of `Receive`. -/
structure Conn (ρ : Type) where
  stream : Bytes
  received : List (Delivery ρ)
  deriving DecidableEq, Repr

namespace Receiver

variable {ρ : Type} (r : Receiver ρ) (err : ReadError)

/-- One turn of the loop, and whether it returns. -/
def turn (c : Conn ρ) : Conn ρ × Bool :=
  let ((bz, readErr), stream) := readBytes err c.stream
  let c := { c with stream := stream }
  if bz.length = 0 then (c, false)
  else
    let bz := if bz.getLast? = some newline then bz.dropLast else bz
    match readErr with
    | none =>
      match r.unmarshal bz with
      | none => (c, false)
      | some m =>
        match r.channelMap m.channelId with
        | none => (c, false)
        | some reactor =>
          let call := ⟨reactor, m.channelId, m.message, m.messageType⟩
          ({ c with received := c.received ++ [call] }, false)
    | some .eof => (c, true)
    | some .other => (c, true)

/-- `handleConnection` after at most `n` turns, and whether it has returned. -/
def handleConnection : ℕ → Conn ρ → Conn ρ × Bool
  | 0, c => (c, false)
  | n + 1, c => if (r.turn err c).2 then r.turn err c else handleConnection n (r.turn err c).1

/-! ## Lines -/

/-- The lines of a stream that end in a newline, and the bytes behind the last one. -/
def lines : Bytes → List Bytes × Bytes
  | [] => ([], [])
  | b :: stream =>
    if b = newline then ([] :: (lines stream).1, (lines stream).2)
    else
      match lines stream with
      | ([], tail) => ([], b :: tail)
      | (l :: ls, tail) => ((b :: l) :: ls, tail)

/-- The call for a line: a well-formed envelope for a channel that has a reactor. -/
def deliver (l : Bytes) : Option (Delivery ρ) :=
  (r.unmarshal l).bind fun m =>
    (r.channelMap m.channelId).map fun reactor => ⟨reactor, m.channelId, m.message, m.messageType⟩

/-- `ReadBytes` reads a terminated line, if there is one, and otherwise what is left. -/
theorem readBytes_lines (stream : Bytes) :
    match lines stream with
    | ([], tail) => readBytes err stream = ((tail, some err), []) ∧ newline ∉ tail
    | (l :: ls, tail) => ∃ rest, readBytes err stream = ((l ++ [newline], none), rest) ∧
      lines rest = (ls, tail) := by
  induction stream with
  | nil => exact ⟨rfl, List.not_mem_nil⟩
  | cons b stream ih =>
    rw [lines, readBytes]
    by_cases hb : b = newline
    · rw [if_pos hb, if_pos hb]
      exact ⟨stream, by rw [hb, List.nil_append], rfl⟩
    · rw [if_neg hb, if_neg hb]
      cases hlines : lines stream with
      | mk ls tail =>
        rw [hlines] at ih
        cases ls with
        | nil =>
          obtain ⟨hread, hnot⟩ := ih
          refine ⟨by rw [hread], fun hmem => ?_⟩
          exact (List.mem_cons.mp hmem).elim (fun h => hb h.symm) hnot
        | cons l ls =>
          obtain ⟨rest, hread, hrest⟩ := ih
          exact ⟨rest, by rw [hread]; rfl, hrest⟩

variable {c : Conn ρ} {l tail : Bytes} {ls : List Bytes}

/-- **A turn on a terminated line** delivers its envelope and goes on. -/
theorem turn_line (h : lines c.stream = (l :: ls, tail)) :
    ∃ rest, r.turn err c = (⟨rest, c.received ++ (r.deliver l).toList⟩, false) ∧
      lines rest = (ls, tail) := by
  have hread := readBytes_lines err c.stream
  rw [h] at hread
  obtain ⟨rest, hread, hrest⟩ := hread
  refine ⟨rest, ?_, hrest⟩
  have hne : (l ++ [newline]).length ≠ 0 := by simp
  simp only [turn, hread, if_neg hne, List.getLast?_concat, if_true, List.dropLast_concat, deliver]
  cases r.unmarshal l with
  | none => simp
  | some m => cases hch : r.channelMap m.channelId <;> simp [hch]

/-- **A turn behind the last newline** returns if there are bytes left, and otherwise does
nothing. -/
theorem turn_tail (h : lines c.stream = ([], tail)) :
    r.turn err c = (⟨[], c.received⟩, !tail.isEmpty) := by
  have hread := readBytes_lines err c.stream
  rw [h] at hread
  simp only [turn, hread.1]
  cases tail with
  | nil => rfl
  | cons b tail => cases err <;> rfl

theorem handleConnection_lines (h : lines c.stream = (ls, tail)) (n : ℕ) :
    ∃ rest, r.handleConnection err (ls.length + n) c =
        r.handleConnection err n ⟨rest, c.received ++ ls.filterMap r.deliver⟩ ∧
      lines rest = ([], tail) := by
  induction ls generalizing c with
  | nil =>
    refine ⟨c.stream, ?_, h⟩
    rw [List.length_nil, Nat.zero_add, List.filterMap_nil, List.append_nil]
  | cons l ls ih =>
    obtain ⟨rest, hturn, hrest⟩ := turn_line r err h
    obtain ⟨rest', hrun, hrest'⟩ := ih (c := ⟨rest, c.received ++ (r.deliver l).toList⟩) hrest
    refine ⟨rest', ?_, hrest'⟩
    rw [List.length_cons, Nat.add_right_comm, handleConnection, hturn, if_neg Bool.false_ne_true, hrun,
      List.append_assoc]
    cases hl : r.deliver l <;> simp [hl]

theorem received_handleConnection (h : lines c.stream = ([], tail)) (n : ℕ) :
    (r.handleConnection err n c).1.received = c.received := by
  induction n generalizing c tail with
  | zero => rfl
  | succ n ih =>
    rw [handleConnection, turn_tail r err h]
    split_ifs
    · rfl
    · exact ih (c := ⟨[], c.received⟩) rfl

/-- **The loop does not end** on a stream that is empty or ends in a newline. -/
theorem not_returned (h : (lines c.stream).2 = []) (n : ℕ) :
    (r.handleConnection err n c).2 = false := by
  induction n generalizing c with
  | zero => rfl
  | succ n ih =>
    rw [handleConnection]
    cases hlines : lines c.stream with
    | mk ls tail =>
      obtain rfl : tail = [] := by rw [← h, hlines]
      cases ls with
      | nil =>
        rw [turn_tail r err hlines]
        exact ih (c := ⟨[], c.received⟩) rfl
      | cons l ls =>
        obtain ⟨rest, hturn, hrest⟩ := turn_line r err hlines
        rw [hturn]
        exact ih (c := ⟨rest, _⟩) (by rw [hrest])

/-- The handler delivers the envelopes of the terminated lines, nothing else, and returns. -/
def Handles (stream : Bytes) : Prop :=
  ∃ n c, r.handleConnection err n ⟨stream, []⟩ = (c, true) ∧
    c.received = (lines stream).1.filterMap r.deliver

/-- **Connections.** On every stream the well-formed envelopes of the terminated lines, and nothing
else, are delivered in order within as many turns as there are lines; the handler then returns if
and only if bytes are left behind the last newline. -/
theorem handleConnection_iff (r : Receiver ρ) (err : ReadError) (stream : Bytes) :
    (∀ n, (lines stream).1.length ≤ n → (r.handleConnection err n ⟨stream, []⟩).1.received =
      (lines stream).1.filterMap r.deliver) ∧
    (r.Handles err stream ↔ (lines stream).2 ≠ []) := by
  have hrun := handleConnection_lines r err (c := ⟨stream, []⟩)
    (Prod.mk.eta : ((lines stream).1, (lines stream).2) = _).symm
  refine ⟨fun n hn => ?_, ?_, fun htail => ?_⟩
  · obtain ⟨k, rfl⟩ := Nat.exists_eq_add_of_le hn
    obtain ⟨rest, hrun, hrest⟩ := hrun k
    rw [hrun, received_handleConnection r err hrest, List.nil_append]
  · rintro ⟨n, c, hreturned, -⟩ htail
    have hnot := not_returned r err (c := ⟨stream, []⟩) htail n
    rw [hreturned] at hnot
    cases hnot
  · obtain ⟨rest, hrun, hrest⟩ := hrun 1
    refine ⟨_, ⟨[], (lines stream).1.filterMap r.deliver⟩, hrun.trans ?_, rfl⟩
    rw [handleConnection, turn_tail r err hrest]
    cases hlast : (lines stream).2 with
    | nil => exact absurd hlast htail
    | cons b bs => rfl

/-! ## A `Sender` -/

/-- What `TcpDial` writes for messages, one after the other. -/
def sent (ms : List Bytes) : Bytes := ms.flatMap (· ++ [newline])

theorem lines_append {m : Bytes} (hm : newline ∉ m) (stream : Bytes) :
    lines (m ++ newline :: stream) = (m :: (lines stream).1, (lines stream).2) := by
  induction m with
  | nil => rfl
  | cons b m ih =>
    have hb : b ≠ newline := fun hb => hm (hb ▸ List.mem_cons_self)
    rw [List.cons_append, lines, if_neg hb, ih fun hmem => hm (List.mem_cons_of_mem b hmem)]

theorem lines_sent {ms : List Bytes} (hms : ∀ m ∈ ms, newline ∉ m) : lines (sent ms) = (ms, []) := by
  induction ms with
  | nil => rfl
  | cons m ms ih =>
    rw [sent, List.flatMap_cons, List.append_assoc, List.singleton_append,
      lines_append (hms m List.mem_cons_self)]
    rw [sent] at ih
    rw [ih fun m' hm' => hms m' (List.mem_cons_of_mem m hm')]

/-- **Connections of a `Sender`** are read for ever after they were closed. -/
theorem not_handles_sent {ms : List Bytes} (hms : ∀ m ∈ ms, newline ∉ m) :
    ¬ r.Handles err (sent ms) := by
  rintro ⟨n, c, hreturned, -⟩
  have hnot := not_returned r err (c := ⟨sent ms, []⟩) (by rw [lines_sent hms]) n
  rw [hreturned] at hnot
  cases hnot

/-- A receiver that reads the text `{"c":33}`, and has a reactor for channel 33. -/
def oneChannel : Receiver Unit where
  channelMap chID := if chID = 0x21 then some () else none
  unmarshal bz := if bz = [123, 34, 99, 34, 58, 51, 51, 125] then some ⟨0x21, [], 0⟩ else none

/-- The sender closes the connection after one envelope, which is delivered. -/
theorem not_handles_closed :
    (oneChannel.handleConnection .eof 2 ⟨sent [[123, 34, 99, 34, 58, 51, 51, 125]], []⟩).1.received =
        [⟨(), 0x21, [], 0⟩] ∧
      ¬ oneChannel.Handles .eof (sent [[123, 34, 99, 34, 58, 51, 51, 125]]) :=
  ⟨by decide, not_handles_sent oneChannel .eof (by decide)⟩

end Receiver

end Emulator.P2p
