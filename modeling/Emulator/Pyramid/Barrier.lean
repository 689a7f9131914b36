import Emulator.Pyramid.Agreement

/-!
# The height barrier of a Pyramid I shard

A node of an I shard stays in the commit step of a height until the B shards related to it have
told it, with a `MessageOK` each, that they are done with the height. The node does not keep who is
still missing: `bcount` counts down from the number of related shards, and `bseen` has the chains
that it was counted down for, so that nobody counts twice.

Two kinds of message are counted that should not be. `addRelayMessageIfOverTime` keeps the first
message for a later height and lets it pass as well, so a `MessageOK` for a later height can be
counted at the height at hand. And the chain that a `MessageOK` names is not looked up in
`RelatedShards`.

The calls of the source that wait for another to return are a list here (`INode.calls`), so that the
states between them are states of the run: `enterNewRound` hands the messages it has kept to
`doMessage` one by one, each of which may run through the height and enter the next.

* `Gate` — the barrier by itself: a height is entered, or a `MessageOK` handled.
* `gate_iNodeStep` — the code does nothing else to it.
* `Gate.Sound.bcount_eq_iff` — the count is right if those it was counted down for are related
  shards, each heard at this height.
* `barrier_iff` — in which runs the count is right and the barrier holds.
-/

namespace Emulator.Pyramid

/-! ## The code -/

structure MessageOK where
  height : ℤ
  srcChain : Str
  deriving DecidableEq, Repr

/-- The messages that `relayMessageChannel` can hold. -/
inductive RelayMessage
  | own (m : Message)
  | ok (m : MessageOK)
  deriving DecidableEq, Repr

/-- The height and the round under which a message is kept. -/
def RelayMessage.height : RelayMessage → ℤ
  | .own m => m.height
  | .ok m => m.height

def RelayMessage.round : RelayMessage → ℤ
  | .own m => m.round
  | .ok _ => 0

/-- The checks of `Receive`. -/
def RelayMessage.validateBasic : RelayMessage → Bool
  | .own m => m.validateBasic
  | .ok _ => true

/-- An I shard, with the keys of its `RelatedShards`. -/
structure IShard extends Shard where
  relatedShards : Finset Str

/-- A call that waits for the one before it to return. -/
inductive Call
  | doMessage (m : RelayMessage)
  | handleStateTransition
  deriving DecidableEq, Repr

/-- `ConsensusState` of an I shard. The channel has messages of both kinds, so that of `node` is not
used. `bseen` is a nil map before `Start`. `handled` records every `MessageOK` that was not put off,
with the height of the node at that moment. -/
structure INode where
  node : Node
  relayMessageChannel : List RelayMessage
  bcount : ℤ
  bseen : Option (Finset Str)
  calls : List Call
  handled : List (ℤ × MessageOK)

/-- `NewConsensusState`. -/
def newINode (S : IShard) (signerIndex : ℕ) : INode :=
  { node := newNode S.toShard signerIndex, relayMessageChannel := [], bcount := 0, bseen := none
    calls := [], handled := [] }

namespace INode

variable (S : IShard)

/-- `addRelayMessageIfOverTime`. The first message for a height is kept, but not reported as
such. -/
def addRelayMessageIfOverTime (n : INode) (m : RelayMessage) : INode × Bool :=
  if n.node.height < m.height ∨ n.node.height = m.height ∧ n.node.round < m.round then
    ({ n with relayMessageChannel := n.relayMessageChannel ++ [m] },
      n.relayMessageChannel.any fun m' => m'.height = m.height)
  else (n, false)

/-- `doMessage` for the messages of the shard itself. -/
def addOwn (n : INode) (m : Message) : INode :=
  let added := n.node.addMessage S.toShard m
  let n := { n with node := { n.node with heightDatas := added.1 } }
  if added.2 then { n with calls := .handleStateTransition :: n.calls } else n

/-- `doMessage` for a `MessageOK`. A write to the nil map panics. -/
def addOK (n : INode) (m : MessageOK) : INode :=
  let n := { n with handled := n.handled ++ [(n.node.height, m)] }
  if m.height < n.node.height then n
  else
    match n.bseen with
    | none => { n with node := { n.node with panicked := true } }
    | some seen =>
      if m.srcChain ∈ seen then n
      else
        { n with
          bseen := some (insert m.srcChain seen)
          bcount := n.bcount - 1
          calls := .handleStateTransition :: n.calls }

def doMessage (n : INode) (m : RelayMessage) : INode :=
  let relayed := n.addRelayMessageIfOverTime m
  if relayed.2 then relayed.1
  else
    match m with
    | .own m => relayed.1.addOwn S m
    | .ok m => relayed.1.addOK m

/-- `enterNewHeight`, where a proposer makes a block of the contents `body`. -/
def enterNewHeight (n : INode) (body : Block) : INode :=
  let node := n.node.enterNewHeight S.toShard body
  let channel := n.relayMessageChannel.filter fun m => m.height ≠ n.node.height
  { n with
    node := node
    relayMessageChannel := channel
    bcount := S.relatedShards.card
    bseen := some ∅
    calls := (channel.filter fun m => m.height = node.height ∧ m.round = node.round).map .doMessage ++
      n.calls }

/-- One turn of `handleStateTransition`: `doCommit` at the end of the commit step, and the
transitions of the shard's own consensus before it. -/
def handleTurn (n : INode) (body : Block) : INode :=
  if n.node.step = .commit then
    if n.bcount = 0 then
      enterNewHeight S { n with calls := .handleStateTransition :: n.calls } body
    else n
  else
    let turned := n.node.transition S.toShard
    let n := { n with node := turned.1 }
    if turned.2 then { n with calls := .handleStateTransition :: n.calls } else n

end INode

inductive IEvent
  /-- `Start` -/
  | start (body : Block)
  /-- `Receive` -/
  | receive (m : RelayMessage)
  /-- `Receive` of a `CrossShardBlock` or a `MessageCommit`, which go into their pools -/
  | receivePool
  /-- the next call that is waiting -/
  | call (body : Block)

/-- One event at a node; `none` if it cannot happen. The lock is free when no call is waiting. -/
def iNodeStep (S : IShard) (n : INode) : IEvent → Option INode
  | .start body =>
    if n.node.panicked ∨ n.calls ≠ [] then none
    else if n.node.height = 0 then some (n.enterNewHeight S body)
    else some { n with calls := [.handleStateTransition] }
  | .receive m =>
    if n.node.panicked ∨ n.calls ≠ [] then none
    else if m.validateBasic then some (n.doMessage S m)
    else some n
  | .receivePool =>
    if n.node.panicked ∨ n.calls ≠ [] then none
    else some { n with calls := [.handleStateTransition] }
  | .call body =>
    if n.node.panicked then none
    else
      match n.calls with
      | [] => none
      | .doMessage m :: calls => some (INode.doMessage S { n with calls } m)
      | .handleStateTransition :: calls => some (INode.handleTurn S { n with calls } body)

/-! ## The barrier by itself -/

/-- What the barrier consists of. -/
structure Gate where
  height : ℤ
  bcount : ℤ
  bseen : Option (Finset Str)
  handled : List (ℤ × MessageOK)

namespace Gate

def enter (S : IShard) (g : Gate) : Gate :=
  { g with height := g.height + 1, bcount := S.relatedShards.card, bseen := some ∅ }

/-- A `MessageOK` is not too late, and the first from its chain. -/
def Counts (g : Gate) (m : MessageOK) : Prop :=
  g.height ≤ m.height ∧ ∃ seen ∈ g.bseen, m.srcChain ∉ seen

instance (g : Gate) (m : MessageOK) : Decidable (g.Counts m) :=
  inferInstanceAs (Decidable (_ ∧ _))

def hear (g : Gate) (m : MessageOK) : Gate := { g with handled := g.handled ++ [(g.height, m)] }

/-- The barrier is counted down for a chain. -/
def count (g : Gate) (c : Str) : Gate :=
  { g with bcount := g.bcount - 1, bseen := g.bseen.map (insert c) }

/-- A `MessageOK` is handled, and counted if it is to be. -/
def add (g : Gate) (m : MessageOK) : Gate :=
  if g.Counts m then (g.hear m).count m.srcChain else g.hear m

/-- The chains from which a `MessageOK` for the height at hand has been handled at that height. -/
def heard (g : Gate) : Finset Str :=
  ((g.handled.filter fun x => x.1 = g.height ∧ x.2.height = g.height).map
    fun x => x.2.srcChain).toFinset

/-- `bcount` counts down by `bseen`, which has everyone who was heard at this height. -/
structure Sound (S : IShard) (g : Gate) : Prop where
  nonneg : 0 ≤ g.height
  fresh : g.height = 0 → g.bseen = none
  past : ∀ x ∈ g.handled, x.1 ≤ g.height
  counted : 0 < g.height → ∃ seen, g.bseen = some seen ∧
    g.bcount = S.relatedShards.card - seen.card ∧ g.heard ⊆ seen

/-- Those that were counted are related shards, and were heard. -/
def Right (S : IShard) (g : Gate) : Prop := ∀ seen ∈ g.bseen, seen ⊆ S.relatedShards ∩ g.heard

variable {S : IShard} {g : Gate} {m : MessageOK} {c : Str}

theorem mem_heard : c ∈ g.heard ↔ ∃ m, (g.height, m) ∈ g.handled ∧ m.height = g.height ∧
    m.srcChain = c := by
  simp [heard, and_assoc]

theorem mem_heard_hear :
    c ∈ (g.hear m).heard ↔ c ∈ g.heard ∨ m.height = g.height ∧ m.srcChain = c := by
  rw [mem_heard, mem_heard]
  show (∃ m', (g.height, m') ∈ g.handled ++ [(g.height, m)] ∧ m'.height = g.height ∧
    m'.srcChain = c) ↔ _
  simp only [List.mem_append, List.mem_singleton, Prod.mk.injEq, true_and, or_and_right, exists_or,
    exists_eq_left]

theorem heard_count (g : Gate) (c : Str) : (g.count c).heard = g.heard := rfl

theorem Sound.heard_enter (h : g.Sound S) : (g.enter S).heard = ∅ := by
  refine Finset.eq_empty_of_forall_notMem fun c hc => ?_
  obtain ⟨m, hm, -⟩ := mem_heard.mp hc
  have hpast : g.height + 1 ≤ g.height := h.past _ hm
  omega

theorem Sound.pos_of_counts (h : g.Sound S) (hc : g.Counts m) : 0 < g.height := by
  obtain ⟨-, seen, hseen, -⟩ := hc
  refine lt_of_le_of_ne h.nonneg fun h0 => ?_
  rw [h.fresh h0.symm] at hseen
  cases hseen

/-- The count is right if those it was counted down for are related shards that were heard: the
others that were heard are among them in any case. -/
theorem Sound.bcount_eq_iff (h : g.Sound S) (hg : 0 < g.height) :
    g.bcount = (S.relatedShards \ g.heard).card ↔ g.Right S := by
  obtain ⟨seen, hseen, hcount, hsub⟩ := h.counted hg
  have hinter : S.relatedShards ∩ g.heard ⊆ seen := Finset.inter_subset_right.trans hsub
  have hcard := Finset.card_sdiff_add_card_inter S.relatedShards g.heard
  have hright : g.Right S ↔ seen ⊆ S.relatedShards ∩ g.heard := by
    rw [Right, hseen]
    exact ⟨fun hr => hr seen rfl, fun hr _ hs => Option.some.inj hs ▸ hr⟩
  rw [hright, hcount]
  constructor
  · intro heq
    exact (Finset.eq_of_subset_of_card_le hinter (by omega)).ge
  · intro hr
    have := Finset.card_le_card hinter
    have := Finset.card_le_card hr
    omega

/-! ### What the two steps keep -/

theorem Sound.enter (h : g.Sound S) : (g.enter S).Sound S where
  nonneg := by
    have := h.nonneg
    show 0 ≤ g.height + 1
    omega
  fresh h0 := by
    have := h.nonneg
    have h0 : g.height + 1 = 0 := h0
    omega
  past x hx := by
    have := h.past x hx
    show x.1 ≤ g.height + 1
    omega
  counted _ := ⟨∅, rfl, by simp [Gate.enter], h.heard_enter.le⟩

theorem right_enter (S : IShard) (g : Gate) : (g.enter S).Right S := by
  rintro seen hseen
  obtain rfl := Option.some.inj hseen
  exact Finset.empty_subset _

theorem Sound.add (h : g.Sound S) (m : MessageOK) : (g.add m).Sound S := by
  have hpast : ∀ x ∈ g.handled ++ [(g.height, m)], x.1 ≤ g.height := by
    intro x hx
    rcases List.mem_append.mp hx with hx | hx
    · exact h.past x hx
    · rw [List.mem_singleton.mp hx]
  unfold Gate.add
  split_ifs with hc
  · refine ⟨h.nonneg, fun h0 => congrArg (Option.map _) (h.fresh h0), hpast, fun hg => ?_⟩
    obtain ⟨seen, hseen, hcount, hsub⟩ := h.counted hg
    obtain ⟨-, _, hseen', hnew⟩ := hc
    obtain rfl := Option.some.inj (hseen.symm.trans hseen')
    refine ⟨insert m.srcChain seen, ?_, ?_, fun c hheard => ?_⟩
    · show g.bseen.map _ = _
      rw [hseen, Option.map_some]
    · show g.bcount - 1 = _
      rw [Finset.card_insert_of_notMem hnew]
      omega
    · rw [heard_count] at hheard
      rcases mem_heard_hear.mp hheard with hheard | ⟨-, rfl⟩
      · exact Finset.mem_insert_of_mem (hsub hheard)
      · exact Finset.mem_insert_self _ _
  · refine ⟨h.nonneg, h.fresh, hpast, fun hg => ?_⟩
    obtain ⟨seen, hseen, hcount, hsub⟩ := h.counted hg
    refine ⟨seen, hseen, hcount, fun c hheard => ?_⟩
    rcases mem_heard_hear.mp hheard with hheard | ⟨hm, rfl⟩
    · exact hsub hheard
    · -- it is for this height, so it was not counted because its chain had been
      by_contra hnew
      exact hc ⟨hm.ge, seen, hseen, hnew⟩

/-- Messages that are counted must be for the height at hand and from a related shard. -/
theorem Right.add (h : g.Right S)
    (hm : g.Counts m → m.height = g.height ∧ m.srcChain ∈ S.relatedShards) : (g.add m).Right S := by
  have hmono : g.heard ⊆ (g.hear m).heard := fun c hc => mem_heard_hear.mpr (.inl hc)
  unfold Gate.add
  split_ifs with hc
  · obtain ⟨hheight, hrel⟩ := hm hc
    intro seen hseen
    obtain ⟨seen₀, hseen₀, rfl⟩ := Option.map_eq_some_iff.mp hseen
    rw [heard_count]
    refine Finset.insert_subset ?_ ((h seen₀ hseen₀).trans (Finset.inter_subset_inter_left hmono))
    exact Finset.mem_inter.mpr ⟨hrel, mem_heard_hear.mpr (.inr ⟨hheight, rfl⟩)⟩
  · intro seen hseen
    exact (h seen hseen).trans (Finset.inter_subset_inter_left hmono)

/-- A count that is right after a message was counted shows what the message was. -/
theorem Right.of_add (hs : g.Sound S) (hc : g.Counts m) (h : (g.add m).Right S) :
    m.height = g.height ∧ m.srcChain ∈ S.relatedShards := by
  obtain ⟨seen, hseen, -, hsub⟩ := hs.counted (hs.pos_of_counts hc)
  have hadd : (g.add m).bseen = some (insert m.srcChain seen) := by
    rw [Gate.add, if_pos hc]
    show g.bseen.map _ = _
    rw [hseen, Option.map_some]
  obtain ⟨hrel, hheard⟩ := Finset.mem_inter.mp (h _ hadd (Finset.mem_insert_self m.srcChain seen))
  rw [Gate.add, if_pos hc, heard_count] at hheard
  obtain ⟨-, _, hseen', hnew⟩ := hc
  obtain rfl := Option.some.inj (hseen.symm.trans hseen')
  rcases mem_heard_hear.mp hheard with hold | ⟨hm, -⟩
  · exact absurd (hsub hold) hnew
  · exact ⟨hm, hrel⟩

end Gate

/-! ## The code moves the barrier -/

def INode.gate (n : INode) : Gate := ⟨n.node.height, n.bcount, n.bseen, n.handled⟩

/-- The `MessageOK` that `doMessage` handles, where it does not put the message off. -/
def INode.messageOK (n : INode) : RelayMessage → Option MessageOK
  | .own _ => none
  | .ok m => if (n.addRelayMessageIfOverTime (.ok m)).2 then none else some m

/-- The `MessageOK` that is handled in an event. -/
def IEvent.messageOK (n : INode) : IEvent → Option MessageOK
  | .receive m => n.messageOK m
  | .call _ =>
    match n.calls with
    | .doMessage m :: _ => n.messageOK m
    | _ => none
  | _ => none

variable {S : IShard} {n n' : INode} {e : IEvent}

theorem Node.height_transition (P : Shard) (n : Node) : (n.transition P).1.height = n.height := by
  unfold Node.transition
  split
  · rfl
  · split
    · dsimp only
      split_ifs
      · unfold Node.doPropose
        split
        · rfl
        · split <;> rfl
      · rfl
    · dsimp only
      split_ifs <;> rfl
    · dsimp only
      split_ifs
      · unfold Node.doPrecommit
        split <;> rfl
      · rfl
    · rfl

theorem Node.height_enterNewHeight (P : Shard) (n : Node) (body : Block) :
    (n.enterNewHeight P body).height = n.height + 1 := by
  unfold Node.enterNewHeight
  dsimp only
  split_ifs <;> rfl

namespace INode

variable (n : INode)

theorem gate_addRelayMessageIfOverTime (m : RelayMessage) :
    (n.addRelayMessageIfOverTime m).1.gate = n.gate := by
  unfold addRelayMessageIfOverTime
  split_ifs <;> rfl

theorem messageOK_calls (calls : List Call) (m : RelayMessage) :
    { n with calls }.messageOK m = n.messageOK m := by
  cases m with
  | own m => rfl
  | ok m =>
    unfold messageOK addRelayMessageIfOverTime
    dsimp only
    split_ifs <;> rfl

theorem gate_addOwn (m : Message) : (n.addOwn S m).gate = n.gate := by
  unfold addOwn
  dsimp only
  split_ifs <;> rfl

theorem gate_addOK (m : MessageOK) : (n.addOK m).gate = n.gate.add m := by
  unfold addOK Gate.add
  dsimp only
  cases hb : n.bseen with
  | none =>
    rw [if_neg (fun hc : n.gate.Counts m => by
      obtain ⟨-, seen, hseen, -⟩ := hc
      rw [gate, hb] at hseen
      cases hseen)]
    split_ifs <;> simp only [gate, Gate.hear, hb]
  | some seen =>
    have hcounts : n.gate.Counts m ↔ ¬m.height < n.node.height ∧ m.srcChain ∉ seen := by
      simp [Gate.Counts, gate, hb]
    simp only [hcounts]
    split_ifs with h₁ h₂ h₃ h₃ <;> simp_all [gate, Gate.hear, Gate.count]

theorem gate_enterNewHeight (body : Block) :
    (n.enterNewHeight S body).gate = n.gate.enter S := by
  unfold enterNewHeight gate Gate.enter
  dsimp only
  rw [Node.height_enterNewHeight]

theorem gate_doMessage (m : RelayMessage) :
    (n.doMessage S m).gate = (n.messageOK m).elim n.gate n.gate.add := by
  unfold doMessage
  dsimp only
  cases m with
  | own m =>
    split_ifs
    · exact gate_addRelayMessageIfOverTime n _
    · exact (gate_addOwn _ m).trans (gate_addRelayMessageIfOverTime n _)
  | ok m =>
    rw [messageOK]
    split_ifs
    · exact gate_addRelayMessageIfOverTime n _
    · show (addOK _ m).gate = n.gate.add m
      rw [gate_addOK, gate_addRelayMessageIfOverTime]

theorem gate_handleTurn (body : Block) :
    (n.handleTurn S body).gate = n.gate ∨ (n.handleTurn S body).gate = n.gate.enter S := by
  unfold handleTurn
  split_ifs
  · exact .inr (gate_enterNewHeight _ body)
  · exact .inl rfl
  · left
    dsimp only
    split_ifs <;> simp only [gate, Node.height_transition]

end INode

/-- An event handles a `MessageOK`; others leave the barrier alone or enter a height. -/
theorem gate_iNodeStep (h : iNodeStep S n e = some n') :
    (∃ m, e.messageOK n = some m ∧ n'.gate = n.gate.add m) ∨
      e.messageOK n = none ∧ (n'.gate = n.gate ∨ n'.gate = n.gate.enter S) := by
  have hmessage : ∀ (n : INode) (m : RelayMessage),
      (∃ m', n.messageOK m = some m' ∧ (n.doMessage S m).gate = n.gate.add m') ∨
        n.messageOK m = none ∧ ((n.doMessage S m).gate = n.gate ∨
          (n.doMessage S m).gate = n.gate.enter S) := by
    intro n m
    rw [INode.gate_doMessage]
    cases hm : n.messageOK m with
    | none => exact .inr ⟨rfl, .inl rfl⟩
    | some m' => exact .inl ⟨m', rfl, rfl⟩
  cases e with
  | start body =>
    rw [iNodeStep] at h
    split_ifs at h
    · obtain rfl := Option.some.inj h
      exact .inr ⟨rfl, .inr (INode.gate_enterNewHeight n body)⟩
    · obtain rfl := Option.some.inj h
      exact .inr ⟨rfl, .inl rfl⟩
  | receive m =>
    rw [iNodeStep] at h
    split_ifs at h with _ hvalid
    · obtain rfl := Option.some.inj h
      exact hmessage n m
    · obtain rfl := Option.some.inj h
      cases m with
      | own m => exact .inr ⟨rfl, .inl rfl⟩
      | ok m => exact absurd rfl hvalid
  | receivePool =>
    rw [iNodeStep] at h
    split_ifs at h
    obtain rfl := Option.some.inj h
    exact .inr ⟨rfl, .inl rfl⟩
  | call body =>
    rw [iNodeStep] at h
    split_ifs at h
    rw [IEvent.messageOK]
    cases hcalls : n.calls with
    | nil =>
      rw [hcalls] at h
      cases h
    | cons c calls =>
      rw [hcalls] at h
      cases c with
      | doMessage m =>
        obtain rfl := Option.some.inj h
        dsimp only
        rw [← INode.messageOK_calls n calls]
        exact hmessage { n with calls } m
      | handleStateTransition =>
        obtain rfl := Option.some.inj h
        exact .inr ⟨rfl, INode.gate_handleTurn { n with calls } body⟩

theorem sound_newINode (S : IShard) (i : ℕ) : (newINode S i).gate.Sound S where
  nonneg := le_rfl
  fresh _ := rfl
  past := nofun
  counted h := absurd h (lt_irrefl 0)

theorem sound_iNodeStep (hn : n.gate.Sound S) (h : iNodeStep S n e = some n') : n'.gate.Sound S := by
  rcases gate_iNodeStep h with ⟨m, -, hg⟩ | ⟨-, hg | hg⟩ <;> rw [hg]
  · exact hn.add m
  · exact hn
  · exact hn.enter

/-! ## When the barrier holds -/

/-- The next thing that the node does is `doCommit`. -/
def INode.AtCommit (n : INode) : Prop :=
  n.node.panicked = false ∧ n.calls.head? = some .handleStateTransition ∧ n.node.step = .commit ∧
    n.bcount = 0

instance (n : INode) : Decidable n.AtCommit := inferInstanceAs (Decidable (_ ∧ _ ∧ _ ∧ _))

/-- The barrier: `bcount` is the number of related shards that have not been heard at this height,
and the node leaves the height only when it has heard them all. -/
structure Barrier (S : IShard) (n : INode) : Prop where
  bcount_eq : n.bcount = (S.relatedShards \ n.gate.heard).card
  commit : n.AtCommit → S.relatedShards ⊆ n.gate.heard

/-- A `MessageOK` that is counted is for the height at hand, and from a related shard. -/
def Exact (S : IShard) (n : INode) (e : IEvent) : Prop :=
  (iNodeStep S n e).isSome → ∀ m ∈ e.messageOK n, n.gate.Counts m →
    m.height = n.node.height ∧ m.srcChain ∈ S.relatedShards

theorem barrier_of_right (hn : n.gate.Sound S) (hpos : 0 < n.node.height) (hr : n.gate.Right S) :
    Barrier S n := by
  have hcount : n.bcount = (S.relatedShards \ n.gate.heard).card := (hn.bcount_eq_iff hpos).mpr hr
  refine ⟨hcount, fun hc => ?_⟩
  have hzero : n.bcount = 0 := hc.2.2.2
  refine Finset.sdiff_eq_empty_iff_subset.mp (Finset.card_eq_zero.mp ?_)
  omega

theorem right_iNodeStep (hn : n.gate.Right S) (he : Exact S n e) (h : iNodeStep S n e = some n') :
    n'.gate.Right S := by
  rcases gate_iNodeStep h with ⟨m, hm, hg⟩ | ⟨-, hg | hg⟩ <;> rw [hg]
  · exact hn.add (he (by rw [h]; rfl) m hm)
  · exact hn
  · exact Gate.right_enter S n.gate

/-- If the barrier holds after an event, the event did not count a wrong message. -/
theorem exact_of_barrier (hn : n.gate.Sound S)
    (hb : ∀ n', iNodeStep S n e = some n' → 0 < n'.node.height → Barrier S n') : Exact S n e := by
  intro hsome m hm hc
  obtain ⟨n', h⟩ := Option.isSome_iff_exists.mp hsome
  have hg : n'.gate = n.gate.add m := by
    rcases gate_iNodeStep h with ⟨m', hm', hg⟩ | ⟨hm', -⟩
    · rw [hg, Option.some.inj (hm.symm.trans hm')]
    · rw [hm'] at hm
      cases hm
  have hpos : 0 < n'.gate.height := by
    rw [hg, Gate.add, if_pos hc]
    exact hn.pos_of_counts hc
  have hright := ((sound_iNodeStep hn h).bcount_eq_iff hpos).mp (hb n' h hpos).bcount_eq
  rw [hg] at hright
  exact hright.of_add hn hc

theorem along_exact (hn : n.gate.Sound S) {es : List IEvent}
    (hb : ∀ es' n', es' <+: es → run (iNodeStep S) n es' = some n' → 0 < n'.node.height → Barrier S n') :
    Along (iNodeStep S) (Exact S) n es := by
  induction es generalizing n with
  | nil => trivial
  | cons e es ih =>
    refine ⟨exact_of_barrier hn fun n' h => hb [e] n' (by simp) (run_cons.mpr ⟨n', h, rfl⟩),
      fun n' h => ih (sound_iNodeStep hn h) fun es' n'' hes' hrun => ?_⟩
    exact hb (e :: es') n'' (List.cons_prefix_cons.mpr ⟨rfl, hes'⟩) (run_cons.mpr ⟨n', h, hrun⟩)

/-- The barrier holds in all states of a run, from `Start` on, if and only if every `MessageOK` that
the node counts in it is for the height that the node is at and comes from a related shard. -/
theorem barrier_iff (S : IShard) (i : ℕ) (es : List IEvent) :
    (∀ es' n, es' <+: es → run (iNodeStep S) (newINode S i) es' = some n → 0 < n.node.height →
        Barrier S n) ↔
      Along (iNodeStep S) (Exact S) (newINode S i) es := by
  constructor
  · exact along_exact (sound_newINode S i)
  · rintro halong es' n ⟨rest, rfl⟩ hrun hpos
    have hinv : n.gate.Sound S ∧ n.gate.Right S :=
      run_invariant_along (I := fun n => n.gate.Sound S ∧ n.gate.Right S)
        (fun _ _ _ hn he h => ⟨sound_iNodeStep hn.1 h, right_iNodeStep hn.2 he h⟩)
        ⟨sound_newINode S i, nofun⟩ (halong.append hrun).1 hrun
    exact barrier_of_right hinv.1 hpos hinv.2

/-- One validator, which proposes every block, and one related shard. -/
def oneValidator : IShard :=
  { fourValidators with peerVotes := [1], relatedShards := {[98]} }

/-- The node is started and gets one `MessageOK`; its own votes lead it to the commit step. -/
def afterOK (m : MessageOK) : List IEvent :=
  [.start (blockWith 7), .receive (.ok m), .call (blockWith 7), .call (blockWith 7),
    .call (blockWith 7)]

def nodeAfter (m : MessageOK) : INode :=
  (run (iNodeStep oneValidator) (newINode oneValidator 0) (afterOK m)).getD (newINode oneValidator 0)

/-- For height 2 from the related shard, and for height 1 from another one. -/
def wrongOKs : List MessageOK := [⟨2, [98]⟩, ⟨1, [99]⟩]

/-- Either lets the node leave height 1 without having heard the related shard. -/
theorem not_barrier_wrongOKs :
    oneValidator.relatedShards = {[98]} ∧ ∀ m ∈ wrongOKs,
      run (iNodeStep oneValidator) (newINode oneValidator 0) (afterOK m) = some (nodeAfter m) ∧
      (nodeAfter m).node.height = 1 ∧ (nodeAfter m).handled = [(1, m)] ∧ (nodeAfter m).AtCommit ∧
      ¬oneValidator.relatedShards ⊆ (nodeAfter m).gate.heard ∧
      ¬Barrier oneValidator (nodeAfter m) := by
  refine ⟨rfl, fun m hm => ?_⟩
  have hsome : ∀ m ∈ wrongOKs,
      (run (iNodeStep oneValidator) (newINode oneValidator 0) (afterOK m)).isSome := by
    decide +kernel
  have hstate : ∀ m ∈ wrongOKs, (nodeAfter m).node.height = 1 ∧ (nodeAfter m).handled = [(1, m)] ∧
      (nodeAfter m).AtCommit ∧ ¬oneValidator.relatedShards ⊆ (nodeAfter m).gate.heard := by
    decide +kernel
  obtain ⟨n, hn⟩ := Option.isSome_iff_exists.mp (hsome m hm)
  obtain ⟨hheight, hhandled, hcommit, hmissing⟩ := hstate m hm
  refine ⟨?_, hheight, hhandled, hcommit, hmissing, fun hb => hmissing (hb.commit hcommit)⟩
  rw [nodeAfter, hn]
  rfl

end Emulator.Pyramid
