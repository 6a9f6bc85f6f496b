import PaqusNetwork.Storage.Answers

namespace PaqusNetwork

open Effect Numeric

def protocolEventKindName : ProtocolEventKind → String
  | .batchTransfer .. => "transfer"
  | .qcashWithdrawn .. => "qcash_withdrawn"
  | .qcashRedeemed .. => "qcash_redeemed"
  | .qcashRecoverRedeemed .. => "qcash_recover_redeemed"
  | .genesisAllocation .. => "genesis_allocation"
  | .coinbasePaid .. => "coinbase_paid"

def isProtocolEventKind (kind : String) : Bool :=
  kind ∈ ["transfer", "qcash_withdrawn", "qcash_redeemed", "qcash_recover_redeemed", "genesis_allocation",
    "coinbase_paid"]

def protocolEventInvolvesAddress (kind : ProtocolEventKind) (address : Address) : Bool :=
  match kind with
  | .batchTransfer sender recipient _ => sender == address || recipient == address
  | .qcashWithdrawn signer _ => signer == address
  | .qcashRedeemed signer recipient _ => signer == address || recipient == address
  | .qcashRecoverRedeemed signer claimant _ => signer == address || claimant == address
  | .genesisAllocation recipient _ => recipient == address
  | .coinbasePaid miner _ => miner == address

structure EventStreamQuery where
  fromHeight : Option Nat
  kind : Option String
  address : Option String
  deriving DecidableEq, Repr

/-- `ProtocolEventStreamState`, without the shared state of the server. -/
structure EventStream where
  nextHeight : Nat
  kind : Option String
  address : Option Address
  pending : List ProtocolEvent
  pollImmediately : Bool
  deriving DecidableEq, Repr

def EventStream.admits (stream : EventStream) (event : ProtocolEvent) : Bool :=
  stream.kind.all (protocolEventKindName event.kind == ·) &&
    stream.address.all (protocolEventInvolvesAddress event.kind ·)

variable {F : Type} (paqus : Paqus F) (events : EventApi)

def finalizedEventHeight (tip : Option Nat) : Option Nat :=
  tip.bind fun height =>
    if paqus.rules.finalityDepth ≤ height then some (height - paqus.rules.finalityDepth) else none

/-- The part of `rpc_event_stream` before the stream; an error is the text of a rejected query. -/
def rpcEventStream (parseAddress : String → Except String Address) (tip : Option Nat) (query : EventStreamQuery) :
    Except String EventStream := do
  let kind := query.kind.map String.toLower
  if kind.any fun kind => !isProtocolEventKind kind then .error "unknown_event_kind"
  else
    let address ← query.address.mapM parseAddress
    let nextHeight := query.fromHeight.getD (((finalizedEventHeight paqus tip).map (saturatingAdd · 1)).getD 0)
    return ⟨nextHeight, kind, address, [], true⟩

def EventStream.due (tip : Option Nat) (stream : EventStream) : Bool :=
  (finalizedEventHeight paqus tip).any (stream.nextHeight ≤ ·)

/-- The cursor advances, and then the block and its events are read; a failed read is only printed. -/
def EventStream.read (stream : EventStream) : DatabaseM EventStream := do
  let advanced := { stream with nextHeight := saturatingAdd stream.nextHeight 1 }
  match ← attempt (onTables (Storage.loadBlockByHeight stream.nextHeight)) with
  | .ok (some block) =>
    let loaded ← attempt do
      let hash ← liftExcept .codec (paqus.blockHash block)
      Database.loadBlockEvents paqus events hash
    match loaded with
    | .ok found => return { advanced with pending := stream.pending ++ found.filter stream.admits }
    | .error _ => return advanced
  | _ => return advanced

def EventStream.poll (tip : Option Nat) (stream : EventStream) : DatabaseM EventStream :=
  let awake := { stream with pollImmediately := false }
  if awake.due paqus tip then do
    let next ← awake.read paqus events
    return if next.pending.isEmpty then { next with pollImmediately := true } else next
  else return awake

/-- A subscription to a node. `emitted` and `settled` are history variables: the events sent so far, and a
height below which every block has been finalized. -/
structure Subscription where
  ledger : Ledger
  database : Database
  stream : EventStream
  emitted : List ProtocolEvent
  ended : Bool
  settled : Nat

/-- One round of the loop of the stream: it sends a pending event, or ends when the event has no id, or
polls the node. -/
def Subscription.round (s : Subscription) : Subscription :=
  if s.ended then s
  else
    match s.stream.pending with
    | event :: rest =>
      let stream := { s.stream with pending := rest }
      match events.id event with
      | .ok _ => { s with stream, emitted := s.emitted ++ [event] }
      | .error _ => { s with stream, ended := true }
    | [] =>
      match s.stream.poll paqus events s.ledger.tipHeight s.database with
      | .ok stream database => { s with stream, database }
      | .error _ database => { s with database }

variable {paqus : Paqus F} {events : EventApi} {height : Nat} {event : ProtocolEvent} {error : StorageError}
  {stream : EventStream} {tip : Option Nat} {ledger : Ledger}

def Ledger.eventsAt (paqus : Paqus F) (ledger : Ledger) (height : Nat) : List ProtocolEvent :=
  match ledger.block height with
  | some block => (ledger.eventsForBlock (paqus.blockDigest block)).insertionSort Indexes.eventLe
  | none => []

def EventStream.wanted (paqus : Paqus F) (ledger : Ledger) (stream : EventStream) (height : Nat) : List ProtocolEvent :=
  (ledger.eventsAt paqus height).filter stream.admits

def ProtocolEvent.Before (left right : ProtocolEvent) : Prop :=
  left.blockHeight < right.blockHeight ∨ (left.blockHeight = right.blockHeight ∧ left.eventIndex < right.eventIndex)

section Order

variable (h : ledger.Unambiguous paqus events)

include h

theorem Ledger.Unambiguous.eventsAt_height (hevent : event ∈ ledger.eventsAt paqus height) :
    event.blockHeight = height := by
  unfold Ledger.eventsAt at hevent
  split at hevent
  next block hblock =>
    rw [List.mem_insertionSort] at hevent
    rw [(h.recorded block (Ledger.mem_storedBlocks.mpr ⟨height, hblock⟩) event hevent).2.1]
    exact h.keyed height block hblock
  next => cases hevent

theorem Ledger.Unambiguous.eventsAt_ordered (height : Nat) :
    (ledger.eventsAt paqus height).Pairwise ProtocolEvent.Before := by
  have hheight : ∀ event ∈ ledger.eventsAt paqus height, event.blockHeight = height := fun _ => h.eventsAt_height
  unfold Ledger.eventsAt at hheight ⊢
  split at hheight
  next block hblock =>
    have hperm := List.perm_insertionSort Indexes.eventLe (ledger.eventsForBlock (paqus.blockDigest block))
    have hnodup : (((ledger.eventsForBlock (paqus.blockDigest block)).insertionSort Indexes.eventLe).map
        ProtocolEvent.eventIndex).Nodup :=
      (hperm.map _).nodup_iff.mpr (h.eventIndex block (Ledger.mem_storedBlocks.mpr ⟨height, hblock⟩))
    have hsorted := List.pairwise_insertionSort Indexes.eventLe (ledger.eventsForBlock (paqus.blockDigest block))
    have hboth := hsorted.and (List.pairwise_map.mp hnodup)
    refine hboth.imp_of_mem fun {left right} hleft hright hpair => ?_
    obtain ⟨hle, hne⟩ := hpair
    have hl := hheight left hleft
    have hr := hheight right hright
    unfold Indexes.eventLe at hle
    exact .inr ⟨by omega, by omega⟩
  next => exact List.Pairwise.nil

theorem EventStream.wanted_ordered (stream : EventStream) (start count : Nat) :
    ((List.range' start count).flatMap (stream.wanted paqus ledger)).Pairwise ProtocolEvent.Before := by
  refine List.pairwise_flatMap.mpr ⟨fun height _ => (h.eventsAt_ordered height).filter _, ?_⟩
  have hrange : (List.range' start count).Pairwise (· < ·) := List.pairwise_lt_range'
  refine hrange.imp fun {first second} hlt left hleft right hright => ?_
  have hl := h.eventsAt_height (List.mem_filter.mp hleft).1
  have hr := h.eventsAt_height (List.mem_filter.mp hright).1
  exact .inl (by omega)

end Order

/-- The database holds what `save_ledger` has written for the ledger. -/
structure StoresLedger (paqus : Paqus F) (events : EventApi) (ledger : Ledger) (database : Database) : Prop where
  indexes : ledger.indexes paqus events = .ok database.indexes
  blocks : database.storage.blocksByHeight = ledger.chain.blocks
  sized : ledger.Sized paqus events
  unambiguous : ledger.Unambiguous paqus events
  tip : ∀ height, ledger.tipHeight = some height → height ≤ u64Max

variable {database : Database}

theorem StoresLedger.of_saved {previous : Database} {u : Unit}
    (hsaved : Database.saveLedger paqus events ledger previous = .ok u database)
    (hsized : ledger.Sized paqus events) (h : ledger.Unambiguous paqus events)
    (htip : ∀ height, ledger.tipHeight = some height → height ≤ u64Max) :
    StoresLedger paqus events ledger database := by
  obtain ⟨htables, hindexes, _⟩ := Database.saveLedger_eq_ok hsaved
  exact ⟨hindexes, Storage.saveLedger_blocks h.keyed htables, hsized, h, htip⟩

theorem StoresLedger.named (h : StoresLedger paqus events ledger database)
    (hevent : event ∈ ledger.eventsAt paqus height) : ∃ id, events.id event = .ok id := by
  unfold Ledger.eventsAt at hevent
  split at hevent
  next block hblock =>
    rw [List.mem_insertionSort] at hevent
    have hindexable := (Ledger.indexes_eq h.indexes).2 block (Ledger.mem_storedBlocks.mpr ⟨height, hblock⟩)
    exact ⟨_, (hindexable.events event hevent).2⟩
  next => cases hevent

def Storage.answering (storage : Storage) : Bool :=
  (storage.faults storage.calls).isNone && (storage.faults (storage.calls + 1)).isNone

def Database.called (database : Database) (calls : Nat) : Database :=
  { database with storage := { database.storage with calls } }

theorem StoresLedger.called (h : StoresLedger paqus events ledger database) (calls : Nat) :
    StoresLedger paqus events ledger (database.called calls) :=
  ⟨h.indexes, h.blocks, h.sized, h.unambiguous, h.tip⟩

section Reads

variable (h : StoresLedger paqus events ledger database)

theorem loadBlock_fails (height : Nat) (hfault : database.storage.faults database.storage.calls = some error) :
    onTables (Storage.loadBlockByHeight height) database =
      .error error (database.called (database.storage.calls + 1)) := by
  have hload : Storage.loadBlockByHeight height database.storage =
      .error error { database.storage with calls := database.storage.calls + 1 } := by
    unfold Storage.loadBlockByHeight
    rw [bind_error (Storage.databaseCall_fails hfault)]
  unfold onTables focus
  rw [hload]
  rfl

theorem loadEvents_fails (hash : BlockHash) (hfault : database.storage.faults database.storage.calls = some error) :
    Database.loadBlockEvents paqus events hash database =
      .error error (database.called (database.storage.calls + 1)) := by
  have hcall : onTables Storage.databaseCall database =
      .error error (database.called (database.storage.calls + 1)) := by
    unfold onTables focus
    rw [Storage.databaseCall_fails hfault]
    rfl
  unfold Database.loadBlockEvents
  rw [bind_error hcall]

include h

theorem loadBlock_reads (height : Nat) (hquiet : database.storage.faults database.storage.calls = none) :
    onTables (Storage.loadBlockByHeight height) database =
      .ok (ledger.block height) (database.called (database.storage.calls + 1)) := by
  refine focus_eq_ok.mpr ⟨{ database.storage with calls := database.storage.calls + 1 }, ?_, rfl⟩
  unfold Storage.loadBlockByHeight
  rw [bind_ok (Storage.databaseCall_quiet hquiet), get_bind]
  dsimp only
  rw [h.blocks, Ledger.block]
  cases hblock : ledger.chain.blocks[height]? with
  | none => rfl
  | some block =>
    have hheight : (block.height == height) = true := by simpa using h.unambiguous.keyed height block hblock
    dsimp only
    rw [hheight]
    rfl

theorem loadEvents_reads {block : Block} (hblock : ledger.block height = some block)
    (hquiet : database.storage.faults database.storage.calls = none) :
    Database.loadBlockEvents paqus events (paqus.blockDigest block) database =
      .ok (ledger.eventsAt paqus height) (database.called (database.storage.calls + 1)) := by
  have hstored := Ledger.mem_storedBlocks.mpr ⟨height, hblock⟩
  have hcall : onTables Storage.databaseCall database = .ok () (database.called (database.storage.calls + 1)) :=
    focus_eq_ok.mpr ⟨_, Storage.databaseCall_quiet hquiet, rfl⟩
  have hfound : database.indexes.loadBlockEvents paqus events (paqus.blockDigest block) =
      .ok (ledger.eventsAt paqus height) := by
    rw [loadBlockEvents_eq h.unambiguous h.sized h.indexes (h.sized.blockHash block hstored),
      h.unambiguous.eventsWhere_block hstored]
    simp only [Ledger.eventsAt, hblock]
  unfold Database.loadBlockEvents
  rw [bind_ok hcall, get_bind]
  exact liftExcept_eq_ok.mpr ⟨hfound, rfl⟩

theorem EventStream.read_eq (stream : EventStream) :
    ∃ calls, stream.read paqus events database =
      .ok { stream with
        nextHeight := saturatingAdd stream.nextHeight 1
        pending := stream.pending ++
          if database.storage.answering then stream.wanted paqus ledger stream.nextHeight else [] }
        (database.called calls) := by
  unfold EventStream.read
  cases hfirst : database.storage.faults database.storage.calls with
  | some error =>
    have hnot : database.storage.answering = false := by simp [Storage.answering, hfirst]
    rw [bind_ok (attempt_error (loadBlock_fails stream.nextHeight hfirst)), hnot]
    exact ⟨database.storage.calls + 1, by simp⟩
  | none =>
    rw [bind_ok (attempt_ok (loadBlock_reads h stream.nextHeight hfirst))]
    cases hblock : ledger.block stream.nextHeight with
    | none =>
      have hnothing : stream.wanted paqus ledger stream.nextHeight = [] := by
        simp [EventStream.wanted, Ledger.eventsAt, hblock]
      rw [hnothing, ite_self, List.append_nil]
      exact ⟨_, rfl⟩
    | some block =>
      have hhash : paqus.blockHash block = .ok (paqus.blockDigest block) :=
        ((Ledger.indexes_eq h.indexes).2 block (Ledger.mem_storedBlocks.mpr ⟨_, hblock⟩)).hashed
      dsimp only
      rw [hhash, liftExcept_ok, pure_bind]
      cases hsecond : database.storage.faults (database.storage.calls + 1) with
      | some error =>
        have hnot : database.storage.answering = false := by simp [Storage.answering, hsecond]
        rw [bind_ok (attempt_error (loadEvents_fails _ hsecond)), hnot]
        exact ⟨database.storage.calls + 1 + 1, by simp [Database.called]⟩
      | none =>
        have hyes : database.storage.answering = true := by simp [Storage.answering, hfirst, hsecond]
        rw [bind_ok (attempt_ok (loadEvents_reads (h.called _) hblock hsecond)), hyes]
        exact ⟨_, rfl⟩

theorem EventStream.poll_due (hdue : stream.due paqus tip = true) (hroom : stream.nextHeight < u64Max) :
    ∃ calls pollImmediately, stream.poll paqus events tip database =
      .ok { stream with
        nextHeight := stream.nextHeight + 1
        pending := stream.pending ++
          if database.storage.answering then stream.wanted paqus ledger stream.nextHeight else []
        pollImmediately }
        (database.called calls) := by
  let awake : EventStream := { stream with pollImmediately := false }
  have hawake : awake.due paqus tip = true := hdue
  have hwanted : awake.wanted paqus ledger awake.nextHeight = stream.wanted paqus ledger stream.nextHeight := rfl
  have hadd : saturatingAdd awake.nextHeight 1 = stream.nextHeight + 1 := saturatingAdd_eq hroom
  obtain ⟨calls, hread⟩ := EventStream.read_eq h awake
  rw [hwanted, hadd] at hread
  refine ⟨calls, (stream.pending ++ if database.storage.answering then
    stream.wanted paqus ledger stream.nextHeight else []).isEmpty, ?_⟩
  change (if awake.due paqus tip then _ else _ : DatabaseM EventStream) database = _
  rw [if_pos hawake, bind_ok hread]
  generalize (if database.storage.answering then stream.wanted paqus ledger stream.nextHeight else []) = found
  cases (stream.pending ++ found).isEmpty with
  | true => rfl
  | false => rfl

end Reads

theorem EventStream.poll_idle (hdue : stream.due paqus tip = false) (database : Database) :
    stream.poll paqus events tip database = .ok { stream with pollImmediately := false } database := by
  have hawake : ({ stream with pollImmediately := false } : EventStream).due paqus tip = false := hdue
  unfold EventStream.poll
  simp only [hawake]
  rfl

variable (paqus events) in
def Ledger.finalizedEnd (ledger : Ledger) : Nat := ((finalizedEventHeight paqus ledger.tipHeight).map (· + 1)).getD 0

namespace Subscription

variable (paqus) in
def opened (ledger : Ledger) (database : Database) (stream : EventStream) : Subscription :=
  ⟨ledger, database, stream, [], false, ledger.finalizedEnd paqus⟩

variable (paqus events)

/-- The node applies blocks or reorganises and saves its ledger. The finalized blocks from the start height on stay
as they are. -/
structure Moves (start : Nat) (s next : Subscription) : Prop where
  saved : ∃ previous, Database.saveLedger paqus events next.ledger previous = .ok () next.database
  sized : next.ledger.Sized paqus events
  unambiguous : next.ledger.Unambiguous paqus events
  tip : ∀ height, next.ledger.tipHeight = some height → height ≤ u64Max
  kept : ∀ height, start ≤ height → height < s.settled → next.ledger.block height = s.ledger.block height
  settled : next.settled = max s.settled (next.ledger.finalizedEnd paqus)
  stream : next.stream = s.stream
  emitted : next.emitted = s.emitted
  ended : next.ended = s.ended

/-- If the next round polls a finalized height, its reads do not fail or there is nothing to read. -/
def Readable (s : Subscription) : Prop :=
  s.stream.pending = [] → s.stream.due paqus s.ledger.tipHeight = true →
    s.database.storage.answering = true ∨ s.stream.wanted paqus s.ledger s.stream.nextHeight = []

/-- A move of the node loses no event that is recorded for such a block. -/
def KeepsEvents (start : Nat) (s next : Subscription) : Prop :=
  ∀ height block, start ≤ height → height < s.settled → s.ledger.block height = some block →
    next.ledger.eventsForBlock (paqus.blockDigest block) = s.ledger.eventsForBlock (paqus.blockDigest block)

/-- The rounds of the stream, each from a state that meets the condition, and the moves of the node in any
order. -/
inductive Run (condition : Subscription → Prop) (opened : Subscription) : Subscription → Prop
  | start : Run condition opened opened
  | round {s} : Run condition opened s → condition s → Run condition opened (s.round paqus events)
  | moves {s next} : Run condition opened s → Moves paqus events opened.stream.nextHeight s next →
    KeepsEvents paqus opened.stream.nextHeight s next → Run condition opened next

/-- What was sent and what is pending are the wanted events of the canonical blocks from the start to the
cursor. -/
def Delivered (start : Nat) (s : Subscription) : Prop :=
  s.emitted ++ s.stream.pending =
    (List.range' start (s.stream.nextHeight - start)).flatMap (s.stream.wanted paqus s.ledger)

structure Sound (start : Nat) (s : Subscription) : Prop where
  stores : StoresLedger paqus events s.ledger s.database
  finalized : s.ledger.finalizedEnd paqus ≤ s.settled
  above : start ≤ s.stream.nextHeight
  settled : s.stream.nextHeight = start ∨ s.stream.nextHeight ≤ s.settled
  running : s.ended = false
  named : ∀ event ∈ s.stream.pending, ∃ id, events.id event = .ok id
  delivered : s.Delivered paqus start

variable {paqus events} {start : Nat} {s : Subscription}

theorem Sound.round_cases (hdepth : 0 < paqus.rules.finalityDepth) (hs : s.Sound paqus events start) :
    (∃ event rest, s.stream.pending = event :: rest ∧ s.round paqus events =
      { s with stream := { s.stream with pending := rest }, emitted := s.emitted ++ [event] }) ∨
    (s.stream.pending = [] ∧ s.stream.due paqus s.ledger.tipHeight = false ∧ s.round paqus events =
      { s with stream := { s.stream with pollImmediately := false } }) ∨
    (s.stream.pending = [] ∧ s.stream.due paqus s.ledger.tipHeight = true ∧ s.stream.nextHeight < s.settled ∧
      ∃ calls pollImmediately, s.round paqus events =
        { s with
          stream := { s.stream with
            nextHeight := s.stream.nextHeight + 1
            pending := if s.database.storage.answering then
              s.stream.wanted paqus s.ledger s.stream.nextHeight else []
            pollImmediately }
          database := s.database.called calls }) := by
  unfold Subscription.round
  rw [hs.running, if_neg Bool.false_ne_true]
  cases hpending : s.stream.pending with
  | cons event rest =>
    obtain ⟨id, hid⟩ := hs.named event (hpending ▸ List.mem_cons_self)
    refine .inl ⟨event, rest, rfl, ?_⟩
    dsimp only
    rw [hid]
  | nil =>
    refine .inr ?_
    dsimp only
    cases hdue : s.stream.due paqus s.ledger.tipHeight with
    | false => exact .inl ⟨rfl, rfl, by rw [EventStream.poll_idle hdue]⟩
    | true =>
      obtain ⟨final, hfinal, hle⟩ := (Option.any_eq_true _ _).mp hdue
      have hle : s.stream.nextHeight ≤ final := of_decide_eq_true hle
      obtain ⟨tip, htip, hfinalized⟩ := Option.bind_eq_some_iff.mp hfinal
      have hmax := hs.stores.tip tip htip
      have hend : s.ledger.finalizedEnd paqus = final + 1 := by simp [Ledger.finalizedEnd, hfinal]
      have hsettled := hs.finalized
      have hbelow : final < tip := by
        split at hfinalized
        next hdeep =>
          have heq := Option.some.inj hfinalized
          omega
        next => cases hfinalized
      obtain ⟨calls, pollImmediately, hpoll⟩ := EventStream.poll_due hs.stores hdue (by omega)
      rw [hpending, List.nil_append] at hpoll
      exact .inr ⟨rfl, rfl, by omega, calls, pollImmediately, by rw [hpoll]⟩

theorem wanted_succ (stream : EventStream) (ledger : Ledger) {next : Nat} (h : start ≤ next) :
    (List.range' start (next + 1 - start)).flatMap (stream.wanted paqus ledger) =
      (List.range' start (next - start)).flatMap (stream.wanted paqus ledger) ++
        stream.wanted paqus ledger next := by
  have hcount : next + 1 - start = next - start + 1 := by omega
  have hlast : start + 1 * (next - start) = next := by omega
  rw [hcount, List.range'_concat, List.flatMap_append, hlast]
  simp

theorem Sound.delivered_round_iff (hdepth : 0 < paqus.rules.finalityDepth) (hs : s.Sound paqus events start) :
    (s.round paqus events).Delivered paqus start ↔ s.Readable paqus := by
  have hdelivered := hs.delivered
  unfold Delivered at hdelivered
  rcases hs.round_cases hdepth with ⟨event, rest, hpending, hround⟩ | ⟨hpending, hdue, hround⟩ |
    ⟨hpending, hdue, _, calls, awake, hround⟩
  · refine iff_of_true ?_ fun hnone => by rw [hpending] at hnone; cases hnone
    rw [hround]
    unfold Delivered
    rw [List.append_assoc, List.singleton_append, ← hpending]
    exact hdelivered
  · refine iff_of_true ?_ fun _ hyes => by rw [hdue] at hyes; cases hyes
    rw [hround]
    exact hdelivered
  · rw [hpending, List.append_nil] at hdelivered
    have hstep : (s.round paqus events).Delivered paqus start ↔
        (if s.database.storage.answering then s.stream.wanted paqus s.ledger s.stream.nextHeight else []) =
          s.stream.wanted paqus s.ledger s.stream.nextHeight := by
      rw [hround]
      unfold Delivered
      dsimp only
      rw [hdelivered]
      exact Iff.trans (Eq.congr_right (wanted_succ s.stream s.ledger hs.above))
        (List.append_cancel_left_eq _ _ _).to_iff
    rw [hstep, Readable]
    cases hanswering : s.database.storage.answering with
    | true => simp
    | false =>
      rw [if_neg Bool.false_ne_true]
      constructor
      · exact fun hnone _ _ => .inr hnone.symm
      · intro hreadable
        rcases hreadable hpending hdue with hyes | hnone
        · cases hyes
        · exact hnone.symm

theorem Sound.round (hdepth : 0 < paqus.rules.finalityDepth) (hs : s.Sound paqus events start)
    (hreadable : s.Readable paqus) : (s.round paqus events).Sound paqus events start := by
  have hdelivered := (hs.delivered_round_iff hdepth).mpr hreadable
  rcases hs.round_cases hdepth with ⟨event, rest, hpending, hround⟩ | ⟨_, _, hround⟩ |
    ⟨_, _, hsettled, calls, awake, hround⟩
  · rw [hround] at hdelivered ⊢
    exact ⟨hs.stores, hs.finalized, hs.above, hs.settled, hs.running,
      fun other hother => hs.named other (hpending ▸ List.mem_cons_of_mem _ hother), hdelivered⟩
  · rw [hround] at hdelivered ⊢
    exact ⟨hs.stores, hs.finalized, hs.above, hs.settled, hs.running, hs.named, hdelivered⟩
  · rw [hround] at hdelivered ⊢
    refine ⟨hs.stores.called calls, hs.finalized, Nat.le_succ_of_le hs.above, .inr hsettled, hs.running, ?_, hdelivered⟩
    intro event hevent
    dsimp only at hevent
    split at hevent
    next =>
      obtain ⟨hat, _⟩ := List.mem_filter.mp hevent
      exact hs.stores.named hat
    next => cases hevent

theorem Sound.moves {next : Subscription} (hs : s.Sound paqus events start) (h : Moves paqus events start s next)
    (hkeeps : KeepsEvents paqus start s next) : next.Sound paqus events start := by
  obtain ⟨previous, hsaved⟩ := h.saved
  have hsettled : s.settled ≤ next.settled := by
    rw [h.settled]
    exact Nat.le_max_left _ _
  refine ⟨.of_saved hsaved h.sized h.unambiguous h.tip, ?_, ?_, ?_, h.ended.trans hs.running, ?_, ?_⟩
  · rw [h.settled]
    exact Nat.le_max_right _ _
  · rw [h.stream]
    exact hs.above
  · rw [h.stream]
    rcases hs.settled with heq | hle
    · exact .inl heq
    · exact .inr (hle.trans hsettled)
  · rw [h.stream]
    exact hs.named
  · have hdelivered := hs.delivered
    unfold Delivered at hdelivered ⊢
    rw [h.stream, h.emitted, hdelivered]
    refine List.flatMap_congr fun height hheight => ?_
    obtain ⟨hge, hlt⟩ := List.mem_range'_1.mp hheight
    have hbelow : height < s.settled := by
      have hs' := hs.settled
      omega
    unfold EventStream.wanted Ledger.eventsAt
    rw [h.kept height hge hbelow]
    cases hblock : s.ledger.block height with
    | none => rfl
    | some block =>
      dsimp only
      rw [hkeeps height block hge hbelow hblock]

theorem Sound.opened (h : StoresLedger paqus events ledger database) (hpending : stream.pending = []) :
    (opened paqus ledger database stream).Sound paqus events stream.nextHeight := by
  refine ⟨h, Nat.le_refl _, Nat.le_refl _, .inl rfl, rfl, ?_, ?_⟩
  · intro event hevent
    rw [show (Subscription.opened paqus ledger database stream).stream.pending = [] from hpending] at hevent
    cases hevent
  · unfold Delivered
    rw [show (Subscription.opened paqus ledger database stream).stream = stream from rfl, hpending, Nat.sub_self]
    rfl

/-- In every run whose polls can read what they find, and whose moves lose no recorded event, the wanted events of
the canonical blocks up to the cursor are sent or pending, in order and each once. -/
theorem eventStream_delivers (hdepth : 0 < paqus.rules.finalityDepth) {ledger : Ledger}
    {database previous : Database} (hsaved : Database.saveLedger paqus events ledger previous = .ok () database)
    (hsized : ledger.Sized paqus events) (hunambiguous : ledger.Unambiguous paqus events)
    (htip : ∀ height, ledger.tipHeight = some height → height ≤ u64Max)
    {parseAddress : String → Except String Address} {query : EventStreamQuery} {stream : EventStream}
    (hquery : rpcEventStream paqus parseAddress ledger.tipHeight query = .ok stream)
    (hrun : Run paqus events (Readable paqus) (opened paqus ledger database stream) s) :
    s.Delivered paqus stream.nextHeight ∧ (s.emitted ++ s.stream.pending).Pairwise ProtocolEvent.Before ∧
      ((s.round paqus events).Delivered paqus stream.nextHeight ↔ s.Readable paqus) := by
  have hpending : stream.pending = [] := by
    unfold rpcEventStream at hquery
    dsimp only at hquery
    split at hquery
    next => cases hquery
    next =>
      obtain ⟨address, _, hreturn⟩ := except_bind_eq_ok.mp hquery
      cases hreturn
      rfl
  have hsound : s.Sound paqus events stream.nextHeight := by
    induction hrun with
    | start => exact Sound.opened (.of_saved hsaved hsized hunambiguous htip) hpending
    | round _ hreadable ih => exact ih.round hdepth hreadable
    | moves _ hmoves hkeeps ih => exact ih.moves hmoves hkeeps
  refine ⟨hsound.delivered, ?_, hsound.delivered_round_iff hdepth⟩
  rw [hsound.delivered]
  exact EventStream.wanted_ordered hsound.stores.unambiguous _ _ _

end Subscription

namespace Reference

def storedEvents (faults : Nat → Option StorageError) : Database :=
  state (Database.saveLedger (eventful 1) eventApi savedLedger ⟨Storage.empty faults, .empty, some 1⟩)

def fromGenesis : EventStream := ⟨0, none, none, [], true⟩

theorem fromGenesis_opened : rpcEventStream (eventful 1) (fun _ => .error "invalid address") savedLedger.tipHeight
    ⟨some 0, none, none⟩ = .ok fromGenesis := by
  decide +kernel

theorem genesis_events_delivered :
    ∃ s, Subscription.Run (eventful 1) eventApi (Subscription.Readable (eventful 1))
        (.opened (eventful 1) savedLedger (storedEvents fun _ => none) fromGenesis) s ∧
      s.emitted ≠ [] ∧ s.Delivered (eventful 1) 0 := by
  have hsaved : Database.saveLedger (eventful 1) eventApi savedLedger
      ⟨Storage.empty fun _ => none, .empty, some 1⟩ = .ok () (storedEvents fun _ => none) :=
    (ok_of_isOk (by decide +kernel)).elim fun _ h => h
  let first := Subscription.opened (eventful 1) savedLedger (storedEvents fun _ => none) fromGenesis
  have hfirst : first.Readable (eventful 1) := fun _ _ => .inl (by decide +kernel)
  have hsecond : (first.round (eventful 1) eventApi).Readable (eventful 1) := by
    have hpending : (first.round (eventful 1) eventApi).stream.pending ≠ [] := by decide +kernel
    exact fun hnone => absurd hnone hpending
  have hrun := (Subscription.Run.round .start hfirst).round hsecond
  refine ⟨_, hrun, by decide +kernel, ?_⟩
  exact (Subscription.eventStream_delivers (by decide) hsaved (by decide +kernel)
    (by decide +kernel) (by decide +kernel) fromGenesis_opened hrun).1

def oneFault (call : Nat) : Option StorageError :=
  if call = 2 then some (.database "MDB_READERS_FULL") else none

/-- The read of the genesis block fails in the first poll, and its events are neither sent nor pending then or
later. -/
theorem failed_read_loses_events :
    Database.saveLedger (eventful 1) eventApi savedLedger ⟨Storage.empty oneFault, .empty, some 1⟩ =
      .ok () (storedEvents oneFault) ∧
    ∃ s, Subscription.Run (eventful 1) eventApi (fun _ => True)
        (.opened (eventful 1) savedLedger (storedEvents oneFault) fromGenesis) s ∧
      s.stream.nextHeight = 1 ∧ ¬s.Delivered (eventful 1) 0 ∧
      ¬(s.round (eventful 1) eventApi).Delivered (eventful 1) 0 := by
  refine ⟨(ok_of_isOk (by decide +kernel)).elim fun _ h => h, _, .round .start trivial, by decide +kernel, ?_, ?_⟩
  · unfold Subscription.Delivered
    decide +kernel
  · unfold Subscription.Delivered
    decide +kernel

end Reference

end PaqusNetwork
