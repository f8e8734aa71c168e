import CausalFrontierRatchet.MediaFrame
import CausalFrontierRatchet.Transducer
import Mathlib.Logic.Function.Basic

/-!
Rejected frames.  A protector starts the receiving state of a sender when it first hears from it, so
a rejected frame may leave a new entry behind.  The ready protector below holds the receiving state
of every member of a roster from the installation on, and there a rejected frame changes nothing.
Filling in the missing entries maps each call of the protector to the same call of the ready one
with the same answer, so no later call can tell whether a rejected frame ever arrived.
-/

namespace CausalFrontierRatchet.RejectedFrames

open BigEndian Crypto MediaLayout MediaRatchet MediaFrame Transducer

/-! ## Ready protectors -/

/-- The record of a version with the receiving state of every member of its roster. -/
structure Record where
  version : Version
  key : Secret
  send : SendRatchet
  members : SenderTag → Option (SigPublic × RecvRatchet × Replay)
  counter : UInt64

structure Ready where
  sid : BitVec 256
  me : SigPublic
  myTag : SenderTag
  versions : ContextId → Option Record
  order : List ContextId
  current : Option ContextId
  retain : ℕ

section Calls

variable (P : Primitives)

/-- The record a version starts with. -/
def Record.new (version : Version) (key : Secret) (me : SigPublic) (roster : List SigPublic) :
    Record where
  version := version
  key := key
  send := SendRatchet.new P key me
  members tag := (rosterOf P roster)[tag]?.map fun sender =>
    (sender, RecvRatchet.new P key sender, Replay.new)
  counter := 0

def Record.receive (r : Record) (tag : SenderTag) (sender : SigPublic) (ratchet : RecvRatchet)
    (replay : Replay) : Record :=
  { r with members := Function.update r.members tag (some (sender, ratchet, replay)) }

def Ready.write (v : Ready) (context : ContextId) (r : Record) : Ready :=
  { v with versions := Function.update v.versions context (some r) }

/-- Installs a version; the oldest records beyond the retention limit are dropped. -/
def Ready.install (v : Ready) (version : Version) (key : Secret) (roster : List SigPublic) :
    Ready :=
  let context := contextId P version
  if (v.versions context).isSome then { v with current := some context }
  else
    let order := v.order ++ [context]
    let versions :=
      Function.update v.versions context (some (Record.new P version key v.me roster))
    { v with
      versions := fun c =>
        if c ∈ order.take (order.length - v.retain) then none else versions c
      order := order.drop (order.length - v.retain)
      current := some context }

def Ready.protect (v : Ready) (codec : Codec) (frame : Bytes) (keyframe : Bool) :
    Except MediaError Bytes × Ready :=
  match v.current with
  | none => (.error .noKey, v)
  | some context =>
      match v.versions context with
      | none => (.error .noKey, v)
      | some r =>
          if r.counter.toNat + 1 = 2 ^ 64 then (.error .counterExhausted, v)
          else
            let trailer : Trailer :=
              { sender := v.myTag, counter := r.counter, version := context, codec, keyframe }
            let l := layout codec frame keyframe
            match r.send.key P r.counter with
            | none => (.error .noKey, v.write context { r with counter := r.counter + 1 })
            | some (fk, send) =>
                (.ok (sealFrame P codec fk (nonceFor P v.sid trailer)
                    (associated trailer.encode frame l) frame l ++ trailer.encode),
                  v.write context { r with counter := r.counter + 1, send })

/-- A frame is opened in the state of its sender, which moves only if the frame is authentic. -/
def Ready.unprotect (v : Ready) (packet : Bytes) :
    Except MediaError (SigPublic × Bytes) × Ready :=
  if packet.length < TRAILER_LEN then (.error .malformed, v)
  else
    let rest := packet.take (packet.length - TRAILER_LEN)
    let raw := packet.drop (packet.length - TRAILER_LEN)
    match Trailer.decode raw with
    | .error e => (.error e, v)
    | .ok trailer =>
        if rest.length < tagLen trailer.codec then (.error .malformed, v)
        else
          let body := rest.take (rest.length - tagLen trailer.codec)
          let tag := rest.drop (rest.length - tagLen trailer.codec)
          match v.versions trailer.version with
          | none => (.error .unknownVersion, v)
          | some r =>
              match r.members trailer.sender with
              | none => (.error .unknownSender, v)
              | some (sender, ratchet, replay) =>
                  if sender = v.me then (.error .ownFrame, v)
                  else
                    match replay.accept trailer.counter with
                    | none => (.error .replay, v)
                    | some nextReplay =>
                        match ratchet.key P trailer.counter with
                        | none => (.error .stale, v)
                        | some (fk, nextRatchet) =>
                            let l := layout trailer.codec body trailer.keyframe
                            match openFrame P trailer.codec fk (nonceFor P v.sid trailer)
                              (associated raw body l) body tag l with
                            | none => (.error .badTag, v)
                            | some content =>
                                (.ok (sender, scatter body l content),
                                  v.write trailer.version
                                    (r.receive trailer.sender sender nextRatchet nextReplay))

/-- A rejected frame changes nothing in a ready protector. -/
theorem Ready.unprotect_error (v : Ready) (packet : Bytes) {e : MediaError}
    (h : (v.unprotect P packet).1 = .error e) : (v.unprotect P packet).2 = v := by
  revert h
  unfold Ready.unprotect
  dsimp only
  repeat' split
  all_goals first | exact fun _ => rfl | exact fun h => nomatch h

end Calls

/-! ## Filling in the missing receivers -/

section View

variable (P : Primitives)

def fill (vk : VersionKeys) : Record where
  version := vk.version
  key := vk.key
  send := vk.send
  members tag := vk.roster[tag]?.map fun sender => (sender, vk.entry P tag sender)
  counter := vk.counter

def view (p : Protector) : Ready where
  sid := p.sid
  me := p.me
  myTag := p.myTag
  versions context := p.versions[context]?.map (fill P)
  order := p.order
  current := p.current
  retain := p.retain

variable {P}

theorem view_insert (p : Protector) (context : ContextId) (vk : VersionKeys) :
    view P { p with versions := p.versions.insert context vk } =
      (view P p).write context (fill P vk) := by
  have hversions : (fun c => (p.versions.insert context vk)[c]?.map (fill P)) =
      Function.update (fun c => p.versions[c]?.map (fill P)) context (some (fill P vk)) := by
    funext c
    rw [Std.ExtTreeMap.getElem?_insert]
    by_cases hc : c = context
    · subst hc
      simp
    · rw [if_neg fun heq => hc (Std.LawfulEqCmp.eq_of_compare heq).symm, Function.update_of_ne hc]
  rw [Ready.write, view, view, hversions]

theorem fill_new (version : Version) (key : Secret) (me : SigPublic) (roster : List SigPublic) :
    fill P (VersionKeys.new P version key me roster) = Record.new P version key me roster := by
  simp [fill, Record.new, VersionKeys.new, VersionKeys.entry]

theorem fill_receive (vk : VersionKeys) {tag : SenderTag} {sender : SigPublic}
    (hmember : vk.roster[tag]? = some sender) (entry : RecvRatchet × Replay) :
    fill P { vk with recv := vk.recv.insert tag entry } =
      (fill P vk).receive tag sender entry.1 entry.2 := by
  have hmembers : (fill P { vk with recv := vk.recv.insert tag entry }).members =
      Function.update (fill P vk).members tag (some (sender, entry)) := by
    funext t
    by_cases ht : t = tag
    · subst ht
      simp [fill, hmember, VersionKeys.entry]
    · rw [Function.update_of_ne ht]
      simp [fill, VersionKeys.entry, Std.ExtTreeMap.getElem?_insert, Ne.symm ht]
  rw [Record.receive, ← hmembers]
  rfl

theorem view_store (p : Protector) (context : ContextId) (vk : VersionKeys) {tag : SenderTag}
    {sender : SigPublic} (hmember : vk.roster[tag]? = some sender)
    (entry : RecvRatchet × Replay) :
    view P (p.store context vk tag entry) =
      (view P p).write context ((fill P vk).receive tag sender entry.1 entry.2) := by
  rw [Protector.store, view_insert, fill_receive vk hmember]

/-- Storing the entry a sender starts with, or already has, shows nothing. -/
theorem view_store_entry (p : Protector) {context : ContextId} {vk : VersionKeys}
    (hrecord : p.versions[context]? = some vk) {tag : SenderTag} {sender : SigPublic}
    (hmember : vk.roster[tag]? = some sender) :
    view P (p.store context vk tag (vk.entry P tag sender)) = view P p := by
  have hmembers : (fill P vk).members tag = some (sender, vk.entry P tag sender) := by
    simp [fill, hmember]
  have hversions : (view P p).versions context = some (fill P vk) := by
    simp [view, hrecord]
  rw [view_store p context vk hmember, Record.receive, Prod.mk.eta, ← hmembers,
    Function.update_eq_self, Ready.write, ← hversions, Function.update_eq_self]

/-! ### Calls -/

theorem view_install (p : Protector) (version : Version) (key : Secret) (roster : List SigPublic) :
    view P (p.install P version key roster) = (view P p).install P version key roster := by
  have hknown : ((view P p).versions (contextId P version)).isSome ↔
      contextId P version ∈ p.versions := by
    rw [Std.ExtTreeMap.mem_iff_isSome_getElem?]
    simp [view]
  by_cases hold : contextId P version ∈ p.versions
  · rw [Protector.install, Ready.install, if_pos hold, if_pos (hknown.mpr hold)]
    rfl
  · rw [Protector.install, Ready.install, if_neg hold, if_neg (mt hknown.mp hold)]
    have hinsert := congrArg Ready.versions
      (view_insert (P := P) p (contextId P version) (VersionKeys.new P version key p.me roster))
    rw [fill_new] at hinsert
    have hversions : (fun c => (evict p.retain (p.order ++ [contextId P version])
          (p.versions.insert (contextId P version)
            (VersionKeys.new P version key p.me roster))).2[c]?.map (fill P)) = fun c =>
        if c ∈ (p.order ++ [contextId P version]).take
          ((p.order ++ [contextId P version]).length - p.retain) then none
        else Function.update (view P p).versions (contextId P version)
          (some (Record.new P version key p.me roster)) c := by
      funext c
      rw [evict_versions]
      split_ifs
      · rfl
      · exact congrFun hinsert c
    simp only [view, evict_order]
    rw [hversions]
    rfl

theorem view_protect (p : Protector) (codec : Codec) (frame : Bytes) (keyframe : Bool) :
    (view P p).protect P codec frame keyframe =
      ((p.protect P codec frame keyframe).1, view P (p.protect P codec frame keyframe).2) := by
  obtain ⟨sid, me, myTag, versions, order, current, retain⟩ := p
  unfold Protector.protect Ready.protect
  cases current with
  | none => rfl
  | some context =>
      simp only [view]
      cases hrecord : versions[context]? with
      | none => rfl
      | some vk =>
          simp only [Option.map_some]
          have hcounter : (fill P vk).counter = vk.counter := rfl
          have hsend : (fill P vk).send = vk.send := rfl
          rw [hcounter, hsend]
          split_ifs with hfull
          · rfl
          · have hwritten : ∀ next : VersionKeys, _ = _ :=
              fun next => view_insert (P := P)
                ⟨sid, me, myTag, versions, order, some context, retain⟩ context next
            cases vk.send.key P vk.counter with
            | none => exact Prod.ext rfl (hwritten { vk with counter := vk.counter + 1 }).symm
            | some key =>
                exact Prod.ext rfl
                  (hwritten { vk with counter := vk.counter + 1, send := key.2 }).symm

theorem view_unprotect (p : Protector) (packet : Bytes) :
    (view P p).unprotect P packet =
      ((p.unprotect P packet).1, view P (p.unprotect P packet).2) := by
  unfold Protector.unprotect Ready.unprotect
  by_cases hshort : packet.length < TRAILER_LEN
  · rw [if_pos hshort, if_pos hshort]
  · rw [if_neg hshort, if_neg hshort]
    dsimp only
    cases Trailer.decode (packet.drop (packet.length - TRAILER_LEN)) with
    | error e => rfl
    | ok trailer =>
        generalize packet.take (packet.length - TRAILER_LEN) = rest
        by_cases htag : rest.length < tagLen trailer.codec
        · simp only [if_pos htag]
        · simp only [if_neg htag]
          have hversions : (view P p).versions trailer.version =
            p.versions[trailer.version]?.map (fill P) := rfl
          rw [hversions]
          cases hrecord : p.versions[trailer.version]? with
          | none => rfl
          | some vk =>
              have hmembers : (fill P vk).members trailer.sender = vk.roster[trailer.sender]?.map
                fun sender => (sender, vk.entry P trailer.sender sender) := rfl
              simp only [Option.map_some, hmembers]
              cases hmember : vk.roster[trailer.sender]? with
              | none => rfl
              | some sender =>
                  have hback := view_store_entry (P := P) p hrecord hmember
                  have hself : (view P p).me = p.me := rfl
                  have hsid : (view P p).sid = p.sid := rfl
                  simp only [Option.map_some, hself, hsid]
                  split_ifs with hme
                  · rfl
                  · cases (vk.entry P trailer.sender sender).2.accept trailer.counter with
                    | none => simp only [hback]
                    | some nextReplay =>
                        cases (vk.entry P trailer.sender sender).1.key P trailer.counter with
                        | none => simp only [hback]
                        | some key =>
                            simp only
                            split
                            · rename_i hopened
                              simp only [hopened, hback]
                            · rename_i content hopened
                              simp only [hopened, view_store p _ _ hmember]

end View

/-! ## Sequences of calls -/

inductive MediaCall where
  | install (version : Version) (key : Secret) (roster : List SigPublic)
  | protect (codec : Codec) (frame : Bytes) (keyframe : Bool)
  | unprotect (packet : Bytes)

/-- What a call returns. -/
inductive Reply where
  | installed
  | sealed (result : Except MediaError Bytes)
  | opened (result : Except MediaError (SigPublic × Bytes))

section Sequences

variable (P : Primitives)

def call (p : Protector) : MediaCall → Reply × Protector
  | .install version key roster => (.installed, p.install P version key roster)
  | .protect codec frame keyframe =>
      let (result, p') := p.protect P codec frame keyframe
      (.sealed result, p')
  | .unprotect packet =>
      let (result, p') := p.unprotect P packet
      (.opened result, p')

def Ready.call (v : Ready) : MediaCall → Reply × Ready
  | .install version key roster => (.installed, v.install P version key roster)
  | .protect codec frame keyframe =>
      let (result, v') := v.protect P codec frame keyframe
      (.sealed result, v')
  | .unprotect packet =>
      let (result, v') := v.unprotect P packet
      (.opened result, v')

/-- Every call answers as the same call of the ready protector does. -/
theorem call_simulates : Simulates (call P) (Ready.call P) fun p v => view P p = v where
  answer := by
    intro p v h input
    subst h
    cases input with
    | install version key roster => rfl
    | protect codec frame keyframe =>
        simp only [call, Ready.call, view_protect]
    | unprotect packet => simp only [call, Ready.call, view_unprotect]
  next := by
    intro p v h input
    subst h
    cases input with
    | install version key roster => exact view_install p version key roster
    | protect codec frame keyframe =>
        simp only [call, Ready.call, view_protect]
    | unprotect packet => simp only [call, Ready.call, view_unprotect]

end Sequences

/-- Whatever calls follow a rejected frame return what they would return without it. -/
theorem rejected_frame_without_effect (P : Primitives) (p : Protector) (packet : Bytes)
    {e : MediaError} (h : (p.unprotect P packet).1 = .error e) (calls : List MediaCall) :
    answers (call P) (p.unprotect P packet).2 calls = answers (call P) p calls := by
  have hready : ((view P p).unprotect P packet).1 = .error e := by rw [view_unprotect, h]
  have hview : view P (p.unprotect P packet).2 = view P p := by
    have hkept := Ready.unprotect_error P (view P p) packet hready
    rw [view_unprotect] at hkept
    exact hkept
  exact (call_simulates P).answers_congr hview calls

section Scenario

/-- A frame of participant 2 under version 1. -/
def genuine : Bytes :=
  match (((Protector.new toy 7 2 4).install toy 1 1 [1, 2]).protect toy .generic [5] false).1 with
  | .ok packet => packet
  | .error _ => []

/-- The frame with its content changed. -/
def forged : Bytes :=
  6 :: genuine.tail

def listener : Protector :=
  (Protector.new toy 7 1 4).install toy 1 1 [1, 2]

/-- A forged first frame starts the receiving state of its sender; the genuine frame is opened as if
it had never arrived. -/
theorem forged_without_effect :
    ∃ e, (listener.unprotect toy forged).1 = .error e ∧
      answers (call toy) (listener.unprotect toy forged).2 [.unprotect genuine] =
        answers (call toy) listener [.unprotect genuine] := by
  have hrejected : (listener.unprotect toy forged).1.toOption = none := by decide +kernel
  cases hforged : (listener.unprotect toy forged).1 with
  | ok content =>
      rw [hforged] at hrejected
      cases hrejected
  | error e => exact ⟨e, rfl, rejected_frame_without_effect toy listener forged hforged _⟩

end Scenario

end CausalFrontierRatchet.RejectedFrames
