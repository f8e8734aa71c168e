import CausalFrontierRatchet.FieldCodec
import CausalFrontierRatchet.MediaFrame

/-!
The persisted media state.  A protector is written as its identity, its retention limit, its records
in the order of their contexts, the eviction order and the current context.  Reading checks what the
operations maintain: tags and contexts match what they are derived from, keys ascend, the sending
epoch follows from the counter, the receiving epoch from the replay window, and the eviction order
lists exactly the retained contexts.
-/

namespace CausalFrontierRatchet.MediaState

open BigEndian Crypto PrefixCodec FieldCodec MediaRatchet MediaFrame

def MAX_MEDIA_STATE_BYTES : ℕ := 2 ^ 22
def MAX_RETAINED_VERSIONS : ℕ := 64
def MAX_ROSTER : ℕ := 256

abbrev Reader := Parser UInt8 MediaError

/-! ## Writing -/

def Writer.count (n : ℕ) : Except MediaError Bytes :=
  if n < 2 ^ 32 then .ok (beBytes 4 n) else .error .malformedState

def writeReceiver (entry : RecvRatchet × Replay) : Bytes :=
  bytesOf entry.1.chain ++ u64Bytes entry.1.epoch ++ u64Bytes entry.2.high ++
    u64Bytes entry.2.seen ++ [if entry.2.started then 1 else 0]

def writeVersion (vk : VersionKeys) : Except MediaError Bytes := do
  let roster ← Writer.count vk.roster.size
  let recv ← Writer.count vk.recv.size
  return bytesOf vk.version ++ bytesOf vk.key ++
    (roster ++ writeEntries bytesOf (fun _ => bytesOf) vk.roster.toList) ++
    bytesOf vk.send.chain ++ u64Bytes vk.send.epoch ++
    (recv ++ writeEntries bytesOf (fun _ => writeReceiver) vk.recv.toList) ++ u64Bytes vk.counter

def writeCurrent : Option ContextId → Bytes
  | some context => 1 :: bytesOf context
  | none => [0]

/-- Encodes all media ratchets, counters and replay windows. -/
def exportPersistenceState (p : Protector) : Except MediaError Bytes := do
  let retain ← Writer.count p.retain
  let size ← Writer.count p.versions.size
  let versions ← p.versions.toList.mapM fun e => do
    return bytesOf e.1 ++ (← writeVersion e.2)
  let length ← Writer.count p.order.length
  let bytes := bytesOf p.sid ++ bytesOf p.me ++ bytesOf p.myTag ++ retain ++
    (size ++ versions.flatten) ++ (length ++ p.order.flatMap bytesOf) ++ writeCurrent p.current
  if bytes.length > MAX_MEDIA_STATE_BYTES then throw .malformedState else return bytes

/-! ## Reading -/

section Reading

variable (P : Primitives)

/-- The sending epoch of the last counted frame. -/
def expectedSendEpoch (counter : UInt64) : UInt64 :=
  (if counter = 0 then 0 else counter - 1) / EPOCH

def readIdentity (tag : SenderTag) : Reader SigPublic := do
  let identity ← array .malformedState 256
  if senderTag P identity ≠ tag then throw .malformedState else pure identity

def readRoster : Reader (Std.ExtTreeMap SenderTag SigPublic) :=
  map .malformedState (array .malformedState 64) (readIdentity P) MAX_ROSTER

/-- A window that never started is empty; a started one holds its highest counter, in whose epoch
the ratchet stands. -/
def ReceiverOk (entry : RecvRatchet × Replay) : Prop :=
  (entry.2.started = false → entry.2.high = 0 ∧ entry.2.seen = 0) ∧
    (entry.2.started = true → entry.2.seen &&& 1 ≠ 0 ∧ entry.1.epoch = entry.2.high / EPOCH)

instance (entry : RecvRatchet × Replay) : Decidable (ReceiverOk entry) :=
  inferInstanceAs (Decidable (_ ∧ _))

def readReceiver (roster : Std.ExtTreeMap SenderTag SigPublic) (myTag tag : SenderTag) :
    Reader (RecvRatchet × Replay) := do
  if tag = myTag ∨ tag ∉ roster then throw .malformedState
  else
    let chain ← array .malformedState 256
    let epoch ← u64 .malformedState
    let high ← u64 .malformedState
    let seen ← u64 .malformedState
    let started ← bool .malformedState
    let entry : RecvRatchet × Replay := (⟨chain, epoch⟩, ⟨high, seen, started⟩)
    if ¬ReceiverOk entry then throw .malformedState else pure entry

def readReceivers (roster : Std.ExtTreeMap SenderTag SigPublic) (myTag : SenderTag) :
    Reader (Std.ExtTreeMap SenderTag (RecvRatchet × Replay)) :=
  map .malformedState (array .malformedState 64) (readReceiver roster myTag) roster.size

def readVersion (myTag : SenderTag) (context : ContextId) : Reader VersionKeys := do
  let version ← array .malformedState 64
  if contextId P version ≠ context then throw .malformedState
  else
    let key ← array .malformedState 256
    let roster ← readRoster P
    let chain ← array .malformedState 256
    let epoch ← u64 .malformedState
    let recv ← readReceivers roster myTag
    let counter ← u64 .malformedState
    if epoch ≠ expectedSendEpoch counter then throw .malformedState
    else pure { version, key, roster, send := ⟨chain, epoch⟩, recv, counter }

/-- Reads retained contexts, each once. -/
def orderLoop (versions : Std.ExtTreeMap ContextId VersionKeys) :
    ℕ → List ContextId → Reader (List ContextId)
  | 0, order => pure order
  | n + 1, order => do
      let context ← array .malformedState 128
      if context ∉ versions ∨ context ∈ order then throw .malformedState
      else orderLoop versions n (order ++ [context])

def readOrder (versions : Std.ExtTreeMap ContextId VersionKeys) (retain : ℕ) :
    Reader (List ContextId) := do
  let n ← count .malformedState retain
  if n ≠ versions.size then throw .malformedState else orderLoop versions n []

def readCurrent : Reader (Option ContextId) := do
  let present ← u8 .malformedState
  if present = 0 then pure none
  else if present = 1 then
    let context ← array .malformedState 128
    pure (some context)
  else throw .malformedState

def finish : Reader Unit := fun input =>
  if input = [] then .ok ((), input) else .error .malformedState

def readProtector : Reader Protector := do
  let sid ← array .malformedState 256
  let me ← array .malformedState 256
  let myTag ← array .malformedState 64
  if myTag ≠ senderTag P me then throw .malformedState
  else
    let retain ← count .malformedState MAX_RETAINED_VERSIONS
    if retain = 0 then throw .malformedState
    else
      let versions ← map .malformedState (array .malformedState 128) (readVersion P myTag) retain
      let order ← readOrder versions retain
      let current ← readCurrent
      finish
      if (current.any fun context => !versions.contains context) ∨
          (versions.isEmpty ≠ current.isNone) then
        throw .malformedState
      else pure { sid, me, myTag, versions, order, current, retain }

/-- Reconstructs media state and rejects malformed or inconsistent input. -/
def importPersistenceState (bytes : Bytes) : Except MediaError Protector :=
  if bytes.length > MAX_MEDIA_STATE_BYTES then .error .malformedState
  else (readProtector P bytes).map Prod.fst

end Reading

/-! ## What is accepted -/

/-- A roster maps each tag to an identity with that tag. -/
structure RosterOk (P : Primitives) (roster : Std.ExtTreeMap SenderTag SigPublic) : Prop where
  size : roster.size ≤ MAX_ROSTER
  tag : ∀ tag id, roster[tag]? = some id → senderTag P id = tag

structure ReceiversOk (roster : Std.ExtTreeMap SenderTag SigPublic) (myTag : SenderTag)
    (recv : Std.ExtTreeMap SenderTag (RecvRatchet × Replay)) : Prop where
  size : recv.size ≤ roster.size
  receiver : ∀ tag entry, recv[tag]? = some entry →
    (tag ≠ myTag ∧ tag ∈ roster) ∧ ReceiverOk entry

structure VersionOk (P : Primitives) (myTag : SenderTag) (context : ContextId) (vk : VersionKeys) :
    Prop where
  context : contextId P vk.version = context
  roster : RosterOk P vk.roster
  recv : ReceiversOk vk.roster myTag vk.recv
  epoch : vk.send.epoch = expectedSendEpoch vk.counter

structure OrderOk (versions : Std.ExtTreeMap ContextId VersionKeys) (order : List ContextId) :
    Prop where
  length : order.length = versions.size
  nodup : order.Nodup
  retained : ∀ context ∈ order, context ∈ versions

structure ProtectorOk (P : Primitives) (p : Protector) : Prop where
  myTag : p.myTag = senderTag P p.me
  retain : 0 < p.retain ∧ p.retain ≤ MAX_RETAINED_VERSIONS
  size : p.versions.size ≤ p.retain
  version : ∀ context vk, p.versions[context]? = some vk → VersionOk P p.myTag context vk
  order : OrderOk p.versions p.order
  current : ∀ context ∈ p.current, context ∈ p.versions
  empty : p.versions.isEmpty = p.current.isNone

/-! ## Readers are exact -/

section Exactness

variable (P : Primitives)

theorem identity_exact (tag : SenderTag) :
    Exact (fun id => senderTag P id = tag) bytesOf (readIdentity P tag) := by
  refine exact_iff.mpr fun input rest id => ?_
  rw [readIdentity, (array_exact _ (by decide)).bind_eq_ok]
  simp only [guard_eq_ok, pure_eq_ok, true_and, not_not]
  constructor
  · intro h
    obtain ⟨a, mid, rfl, htag, rfl, rfl⟩ := h
    exact ⟨htag, rfl⟩
  · intro h
    exact ⟨id, rest, h.2, h.1, rfl, rfl⟩

theorem roster_exact :
    Exact (RosterOk P) (writeMap bytesOf fun _ => bytesOf) (readRoster P) := by
  have hmap := map_exact MediaError.malformedState
    (array_exact .malformedState (by decide : 8 ∣ 64)) (identity_exact P)
    (by decide : MAX_ROSTER < 2 ^ 32)
  refine exact_iff.mpr fun input rest roster => ?_
  rw [readRoster, exact_iff.mp hmap]
  exact and_congr_left fun _ => ⟨fun h => ⟨h.1, h.2⟩, fun h => ⟨h.size, h.tag⟩⟩

theorem receiver_exact (roster : Std.ExtTreeMap SenderTag SigPublic) (myTag tag : SenderTag) :
    Exact (fun entry => (tag ≠ myTag ∧ tag ∈ roster) ∧ ReceiverOk entry) writeReceiver
      (readReceiver roster myTag tag) := by
  refine exact_iff.mpr fun input rest entry => ?_
  rw [readReceiver, guard_eq_ok, (array_exact _ (by decide)).bind_eq_ok]
  simp only [(u64_exact _).bind_eq_ok, (bool_exact _).bind_eq_ok, guard_eq_ok, pure_eq_ok,
    true_and, not_not, not_or]
  constructor
  · intro h
    obtain ⟨hmember, chain, _, rfl, epoch, _, rfl, high, _, rfl, seen, _, rfl, started, _, rfl, hok,
      rfl, rfl⟩ := h
    refine ⟨⟨hmember, hok⟩, ?_⟩
    simp only [writeReceiver, u64Bytes, List.append_assoc]
  · intro h
    obtain ⟨⟨hmember, hok⟩, rfl⟩ := h
    refine ⟨hmember, entry.1.chain, _, ?_, entry.1.epoch, _, rfl, entry.2.high, _, rfl,
      entry.2.seen, _, rfl, entry.2.started, rest, rfl, hok, rfl, rfl⟩
    simp only [writeReceiver, u64Bytes, List.append_assoc]

theorem receivers_exact {roster : Std.ExtTreeMap SenderTag SigPublic} (h : RosterOk P roster)
    (myTag : SenderTag) :
    Exact (ReceiversOk roster myTag) (writeMap bytesOf fun _ => writeReceiver)
      (readReceivers roster myTag) := by
  have hlimit : roster.size < 2 ^ 32 := Nat.lt_of_le_of_lt h.size (by decide)
  have hmap := map_exact MediaError.malformedState
    (array_exact .malformedState (by decide : 8 ∣ 64)) (receiver_exact roster myTag) hlimit
  refine exact_iff.mpr fun input rest recv => ?_
  rw [readReceivers, exact_iff.mp hmap]
  exact and_congr_left fun _ => ⟨fun h => ⟨h.1, h.2⟩, fun h => ⟨h.size, h.receiver⟩⟩

/-- What `writeVersion` writes. -/
def versionBytes (vk : VersionKeys) : Bytes :=
  bytesOf vk.version ++ bytesOf vk.key ++ writeMap bytesOf (fun _ => bytesOf) vk.roster ++
    bytesOf vk.send.chain ++ u64Bytes vk.send.epoch ++
    writeMap bytesOf (fun _ => writeReceiver) vk.recv ++ u64Bytes vk.counter

theorem version_exact (myTag : SenderTag) (context : ContextId) :
    Exact (VersionOk P myTag context) versionBytes (readVersion P myTag context) := by
  refine exact_iff.mpr fun input rest vk => ?_
  constructor
  · intro h
    obtain ⟨version, _, -, rfl, hversion⟩ := (array_exact _ (by decide)).bind_sound h
    obtain ⟨hcontext, hmatched⟩ := guard_eq_ok.mp hversion
    obtain ⟨key, _, -, rfl, hkey⟩ := (array_exact _ (by decide)).bind_sound hmatched
    obtain ⟨roster, _, hroster, rfl, hrostered⟩ := (roster_exact P).bind_sound hkey
    obtain ⟨chain, _, -, rfl, hchain⟩ := (array_exact _ (by decide)).bind_sound hrostered
    obtain ⟨epoch, _, -, rfl, hsend⟩ := (u64_exact _).bind_sound hchain
    obtain ⟨recv, _, hrecv, rfl, hreceived⟩ := (receivers_exact P hroster myTag).bind_sound hsend
    obtain ⟨counter, _, -, rfl, hcounter⟩ := (u64_exact _).bind_sound hreceived
    obtain ⟨hepoch, hpure⟩ := guard_eq_ok.mp hcounter
    obtain ⟨rfl, rfl⟩ := pure_eq_ok.mp hpure
    refine ⟨⟨not_not.mp hcontext, hroster, hrecv, not_not.mp hepoch⟩, ?_⟩
    simp only [versionBytes, u64Bytes, List.append_assoc]
  · intro h
    obtain ⟨hok, rfl⟩ := h
    simp only [versionBytes, u64Bytes, List.append_assoc]
    rw [readVersion, (array_exact _ (by decide)).bind_complete trivial,
      if_neg (not_not.mpr hok.context), (array_exact _ (by decide)).bind_complete trivial,
      (roster_exact P).bind_complete hok.roster, (array_exact _ (by decide)).bind_complete trivial,
      (u64_exact _).bind_complete trivial,
      (receivers_exact P hok.roster myTag).bind_complete hok.recv,
      (u64_exact _).bind_complete trivial, if_neg (not_not.mpr hok.epoch)]
    rfl

theorem orderLoop_eq_ok {versions : Std.ExtTreeMap ContextId VersionKeys} {n : ℕ}
    {order order' : List ContextId} {input rest : Bytes} (hnodup : order.Nodup) :
    orderLoop versions n order input = .ok (order', rest) ↔
      ∃ later : List ContextId, later.length = n ∧ (order ++ later).Nodup ∧
        (∀ context ∈ later, context ∈ versions) ∧ input = later.flatMap bytesOf ++ rest ∧
        order' = order ++ later := by
  induction n generalizing order input with
  | zero =>
      rw [orderLoop, pure_eq_ok]
      constructor
      · intro h
        exact ⟨[], rfl, by rwa [List.append_nil], fun _ hc => absurd hc List.not_mem_nil, h.2,
          by rw [List.append_nil, h.1]⟩
      · intro h
        obtain ⟨later, hlen, -, -, hinput, horder⟩ := h
        rw [List.length_eq_zero_iff.mp hlen] at hinput horder
        rw [horder, List.append_nil]
        exact ⟨rfl, hinput⟩
  | succ n ih =>
      rw [orderLoop, (array_exact _ (by decide)).bind_eq_ok]
      simp only [guard_eq_ok, true_and, not_or, not_not]
      constructor
      · intro h
        obtain ⟨context, mid, rfl, ⟨hmember, hnew⟩, hloop⟩ := h
        have hnext : (order ++ [context]).Nodup :=
          List.nodup_append.mpr ⟨hnodup, List.nodup_singleton _, fun a ha b hb heq =>
            hnew ((List.mem_singleton.mp hb) ▸ heq ▸ ha)⟩
        obtain ⟨later, hlen, hall, hin, rfl, rfl⟩ := (ih hnext).mp hloop
        refine ⟨context :: later, by rw [List.length_cons, hlen], ?_,
          List.forall_mem_cons.mpr ⟨hmember, hin⟩, ?_, by rw [List.append_assoc]; rfl⟩
        · rwa [List.append_assoc] at hall
        · rw [List.flatMap_cons, List.append_assoc]
      · intro h
        obtain ⟨later, hlen, hall, hin, rfl, rfl⟩ := h
        cases later with
        | nil => cases hlen
        | cons context later =>
            rw [List.forall_mem_cons] at hin
            have hall' : ((order ++ [context]) ++ later).Nodup := by rwa [List.append_assoc]
            have hnext := hall'.of_append_left
            refine ⟨context, later.flatMap bytesOf ++ rest,
              by rw [List.flatMap_cons, List.append_assoc], ⟨hin.1, fun hold => ?_⟩, (ih hnext).mpr
                ⟨later, Nat.succ.inj hlen, hall', hin.2, rfl, by rw [List.append_assoc]; rfl⟩⟩
            exact (List.nodup_append.mp hnext).2.2 context hold context
              (List.mem_singleton_self _) rfl

def writeOrder (order : List ContextId) : Bytes :=
  beBytes 4 order.length ++ order.flatMap bytesOf

theorem order_exact (versions : Std.ExtTreeMap ContextId VersionKeys) {retain : ℕ}
    (hretain : retain < 2 ^ 32) :
    Exact (fun order => order.length ≤ retain ∧ OrderOk versions order) writeOrder
      (readOrder versions retain) := by
  refine exact_iff.mpr fun input rest order => ?_
  rw [readOrder, (count_exact _ hretain).bind_eq_ok]
  simp only [guard_eq_ok, orderLoop_eq_ok List.nodup_nil, not_not, List.nil_append]
  constructor
  · intro h
    obtain ⟨n, mid, hn, rfl, hsize, later, rfl, hnodup, hin, rfl, rfl⟩ := h
    exact ⟨⟨hn, hsize, hnodup, hin⟩, (List.append_assoc _ _ _).symm⟩
  · intro h
    obtain ⟨⟨hn, hok⟩, rfl⟩ := h
    exact ⟨order.length, _, hn, List.append_assoc _ _ _, hok.length, order, rfl, hok.nodup,
      hok.retained, rfl, rfl⟩

theorem current_exact :
    Exact (fun _ : Option ContextId => True) writeCurrent readCurrent := by
  refine exact_iff.mpr fun input rest current => ?_
  rw [readCurrent, (u8_exact _).bind_eq_ok]
  simp only [true_and]
  constructor
  · intro h
    obtain ⟨present, mid, rfl, hnext⟩ := h
    split_ifs at hnext with hzero hone
    · obtain ⟨rfl, rfl⟩ := pure_eq_ok.mp hnext
      rw [hzero]
      rfl
    · obtain ⟨context, _, -, rfl, hpure⟩ := (array_exact _ (by decide)).bind_sound hnext
      obtain ⟨rfl, rfl⟩ := pure_eq_ok.mp hpure
      rw [hone]
      rfl
    · cases hnext
  · intro h
    cases current with
    | none => exact ⟨0, rest, h, rfl⟩
    | some context =>
        refine ⟨1, bytesOf context ++ rest, h, ?_⟩
        rw [if_neg (by decide), if_pos rfl, (array_exact _ (by decide)).bind_complete trivial]
        rfl

/-- What `exportPersistenceState` writes. -/
def protectorBytes (p : Protector) : Bytes :=
  bytesOf p.sid ++ bytesOf p.me ++ bytesOf p.myTag ++ beBytes 4 p.retain ++
    writeMap bytesOf (fun _ => versionBytes) p.versions ++ writeOrder p.order ++
    writeCurrent p.current

theorem versions_exact (myTag : SenderTag) {retain : ℕ} (hretain : retain < 2 ^ 32) :
    Exact (fun versions : Std.ExtTreeMap ContextId VersionKeys => versions.size ≤ retain ∧
        ∀ context vk, versions[context]? = some vk → VersionOk P myTag context vk)
      (writeMap bytesOf fun _ => versionBytes)
      (map .malformedState (array .malformedState 128) (readVersion P myTag) retain) :=
  map_exact .malformedState (array_exact .malformedState (by decide : 8 ∣ 128))
    (version_exact P myTag) hretain

theorem readProtector_eq_ok {p : Protector} {input rest : Bytes} :
    readProtector P input = .ok (p, rest) ↔
      ProtectorOk P p ∧ input = protectorBytes p ∧ rest = [] := by
  have hlimit : ∀ {retain : ℕ}, retain ≤ MAX_RETAINED_VERSIONS → retain < 2 ^ 32 :=
    fun h => Nat.lt_of_le_of_lt h (by decide)
  constructor
  · intro h
    obtain ⟨sid, _, -, rfl, hsid⟩ := (array_exact _ (by decide)).bind_sound h
    obtain ⟨me, _, -, rfl, hme⟩ := (array_exact _ (by decide)).bind_sound hsid
    obtain ⟨myTag, _, -, rfl, htagged⟩ := (array_exact _ (by decide)).bind_sound hme
    obtain ⟨htag, hidentity⟩ := guard_eq_ok.mp htagged
    obtain ⟨retain, _, hmax, rfl, hretained⟩ := (count_exact _ (by decide)).bind_sound hidentity
    obtain ⟨hpos, hlimited⟩ := guard_eq_ok.mp hretained
    obtain ⟨versions, _, hversions, rfl, hread⟩ :=
      (versions_exact P myTag (hlimit hmax)).bind_sound hlimited
    obtain ⟨order, _, horder, rfl, hordered⟩ :=
      (order_exact versions (hlimit hmax)).bind_sound hread
    obtain ⟨current, _, -, rfl, hcurrent⟩ := current_exact.bind_sound hordered
    obtain ⟨_, _, hfinish, hchecked⟩ := ok_of_bind hcurrent
    obtain ⟨hpresent, hpure⟩ := guard_eq_ok.mp hchecked
    obtain ⟨rfl, rfl⟩ := pure_eq_ok.mp hpure
    unfold finish at hfinish
    split_ifs at hfinish with hempty
    cases hfinish
    rw [not_or, not_not] at hpresent
    refine ⟨⟨not_not.mp htag, ⟨Nat.pos_of_ne_zero hpos, hmax⟩, hversions.1, hversions.2, horder.2,
      fun context hc => ?_, hpresent.2⟩, ?_, hempty⟩
    · by_contra hmissing
      have hcurrent : current = some context := hc
      apply hpresent.1
      rw [hcurrent, Option.any_some, Bool.not_eq_true', ← Bool.not_eq_true]
      exact fun hheld => hmissing (Std.ExtTreeMap.contains_iff_mem.mp hheld)
    · rw [hempty]
      simp only [protectorBytes, List.append_assoc, List.append_nil]
  · intro h
    obtain ⟨hok, rfl, rfl⟩ := h
    have hretain := hlimit hok.retain.2
    have horder : p.order.length ≤ p.retain := hok.order.length ▸ hok.size
    have hchecked : ¬((p.current.any fun context => !p.versions.contains context) ∨
        p.versions.isEmpty ≠ p.current.isNone) := by
      rw [not_or, not_not]
      refine ⟨?_, hok.empty⟩
      cases hcurrent : p.current with
      | none => simp
      | some context =>
          have hheld := Std.ExtTreeMap.contains_iff_mem.mpr (hok.current context hcurrent)
          rw [Option.any_some, hheld]
          decide
    have hsplit : protectorBytes p = bytesOf p.sid ++ (bytesOf p.me ++ (bytesOf p.myTag ++
        (beBytes 4 p.retain ++ (writeMap bytesOf (fun _ => versionBytes) p.versions ++
          (writeOrder p.order ++ (writeCurrent p.current ++ [])))))) := by
      simp only [protectorBytes, List.append_assoc, List.append_nil]
    rw [hsplit, readProtector, (array_exact _ (by decide)).bind_complete trivial,
      (array_exact _ (by decide)).bind_complete trivial,
      (array_exact _ (by decide)).bind_complete trivial, if_neg (not_not.mpr hok.myTag),
      (count_exact _ (by decide)).bind_complete hok.retain.2, if_neg hok.retain.1.ne',
      (versions_exact P p.myTag hretain).bind_complete ⟨hok.size, hok.version⟩,
      (order_exact p.versions hretain).bind_complete ⟨horder, hok.order⟩,
      current_exact.bind_complete trivial]
    have hfinish : finish [] = .ok ((), []) := rfl
    rw [bind_of_ok hfinish, if_neg hchecked]
    rfl

theorem import_eq_ok {p : Protector} {bytes : Bytes} :
    importPersistenceState P bytes = .ok p ↔
      ProtectorOk P p ∧ bytes = protectorBytes p ∧ bytes.length ≤ MAX_MEDIA_STATE_BYTES := by
  unfold importPersistenceState
  split_ifs with hlong
  · simp only [false_iff, not_and]
    exact fun _ _ hle => absurd hlong (Nat.not_lt.mpr hle)
  · constructor
    · intro h
      cases hrun : readProtector P bytes with
      | error e =>
          rw [hrun] at h
          cases h
      | ok out =>
          rw [hrun] at h
          cases h
          obtain ⟨hok, hbytes, -⟩ := (readProtector_eq_ok P).mp hrun
          exact ⟨hok, hbytes, Nat.not_lt.mp hlong⟩
    · intro h
      rw [(readProtector_eq_ok P).mpr ⟨h.1, h.2.1, rfl⟩]
      rfl

theorem count_ok {n : ℕ} (h : n < 2 ^ 32) : Writer.count n = .ok (beBytes 4 n) :=
  if_pos h

theorem writeVersion_ok {myTag : SenderTag} {context : ContextId} {vk : VersionKeys}
    (h : VersionOk P myTag context vk) : writeVersion vk = .ok (versionBytes vk) := by
  have hroster : vk.roster.size < 2 ^ 32 := Nat.lt_of_le_of_lt h.roster.size (by decide)
  rw [writeVersion, count_ok hroster, count_ok (Nat.lt_of_le_of_lt h.recv.size hroster)]
  rfl

theorem mapM_ok {α β ε : Type} {f : α → Except ε β} {g : α → β} {l : List α}
    (h : ∀ a ∈ l, f a = .ok (g a)) : l.mapM f = .ok (l.map g) := by
  induction l with
  | nil => rfl
  | cons a l ih =>
      rw [List.forall_mem_cons] at h
      rw [List.mapM_cons, h.1, ih h.2]
      rfl

theorem export_eq {p : Protector} (h : ProtectorOk P p) :
    exportPersistenceState p =
      if (protectorBytes p).length > MAX_MEDIA_STATE_BYTES then .error .malformedState
      else .ok (protectorBytes p) := by
  have hretain : p.retain < 2 ^ 32 := Nat.lt_of_le_of_lt h.retain.2 (by decide)
  have hsize : p.versions.size < 2 ^ 32 := Nat.lt_of_le_of_lt h.size hretain
  have hversions : (p.versions.toList.mapM fun e => do return bytesOf e.1 ++ (← writeVersion e.2)) =
      Except.ok (p.versions.toList.map fun e => bytesOf e.1 ++ versionBytes e.2) := by
    apply mapM_ok
    intro e he
    rw [writeVersion_ok P
      (h.version e.1 e.2 (Std.ExtTreeMap.mem_toList_iff_getElem?_eq_some.mp he))]
    rfl
  rw [exportPersistenceState, count_ok hretain, count_ok hsize, hversions,
    count_ok (h.order.length ▸ hsize)]
  have hbytes : bytesOf p.sid ++ bytesOf p.me ++ bytesOf p.myTag ++ beBytes 4 p.retain ++
      (beBytes 4 p.versions.size ++
        (p.versions.toList.map fun e => bytesOf e.1 ++ versionBytes e.2).flatten) ++
      (beBytes 4 p.order.length ++ p.order.flatMap bytesOf) ++ writeCurrent p.current =
        protectorBytes p := by
    rw [← List.flatMap_def]
    rfl
  simp only [bind, Except.bind, hbytes]
  rfl

end Exactness

end CausalFrontierRatchet.MediaState
