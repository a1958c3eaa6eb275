import AmpcCommon.Sessions.ControlChannel
import AmpcCommon.Wire.Proofs.CodecProofs
import Mathlib.Data.Fin.VecNotation
import Mathlib.Tactic.FinCases

/-!
# The barrier of the control channel

What a party does is a script: in the step `k` it starts at the stage `3 * k`, writes at the stage after it, then reads,
and returns. What it reads is what its neighbours write one stage earlier, so the library of stream networks gives the
run: the parties follow their scripts, and a token that was read was sent.
-/

namespace AmpcCommon.Sessions

open Tcp (Identity)
open Wire (NetworkValue)
open StreamNetwork (Act)

/-! ## The streams -/

theorem connectionsTo_eq {identities : Party → Identity} (hids : Function.Injective identities) (q : Party) :
    connectionsTo identities (identities q) = [q] := by
  have hsame : (fun r => decide (identities r = identities q)) = fun r => decide (r = q) := by
    funext r
    rw [decide_eq_decide]
    exact hids.eq_iff
  unfold connectionsTo
  rw [hsame]
  fin_cases q <;> rfl

theorem lookup_roleAssignment (identities : Party → Identity) (p : Party) :
    (roleAssignment (List.ofFn identities)).lookup (Role.new p) = some (identities p) := by
  show AList.lookup _ (((∅ : AList fun _ : Role => Identity).insert 0 (identities 0)).insert 1 (identities 1)
    |>.insert 2 (identities 2)) = _
  match p with
  | 0 =>
    show AList.lookup 0 _ = _
    rw [AList.lookup_insert_ne (by decide), AList.lookup_insert_ne (by decide), AList.lookup_insert]
  | 1 =>
    show AList.lookup 1 _ = _
    rw [AList.lookup_insert_ne (by decide), AList.lookup_insert]
  | 2 => exact AList.lookup_insert _

/-- The stream to the peer with the id of the next party is the next one. -/
theorem controlChannel_eq {T : Type} {identities : Party → Identity} {peers : Identity × Identity} {p q : Party}
    (hnext : (Role.new p).next 3 = .ok (Role.new q)) (x y : T) :
    NetworkHandle.controlChannel ⟨peers, p, roleAssignment (List.ofFn identities)⟩ [x] [y] =
      if peers.1 = identities q then .ok ⟨x, y⟩ else .ok ⟨y, x⟩ := by
  show ((Role.new p).next 3 >>= _) = _
  rw [hnext, Outcome.ok_bind]
  dsimp only
  rw [lookup_roleAssignment]
  rfl

/-- Next and previous are resolved to the neighbours in the ring, whatever order the peers of a party are in. -/
theorem channelOf_eq {identities : Party → Identity} (hids : Function.Injective identities) (p : Party) :
    channelOf identities p = .ok ⟨p + 1, p + 2⟩ := by
  match p with
  | 0 =>
    show NetworkHandle.controlChannel ⟨_, (0 : Party), _⟩ (connectionsTo identities (identities 1))
      (connectionsTo identities (identities 2)) = _
    rw [connectionsTo_eq hids, connectionsTo_eq hids, controlChannel_eq (q := 1) (by decide)]
    exact if_pos rfl
  | 1 =>
    show NetworkHandle.controlChannel ⟨_, (1 : Party), _⟩ (connectionsTo identities (identities 0))
      (connectionsTo identities (identities 2)) = _
    rw [connectionsTo_eq hids, connectionsTo_eq hids, controlChannel_eq (q := 2) (by decide)]
    exact if_neg fun h => absurd (hids h) (by decide)
  | 2 =>
    show NetworkHandle.controlChannel ⟨_, (2 : Party), _⟩ (connectionsTo identities (identities 0))
      (connectionsTo identities (identities 1)) = _
    rw [connectionsTo_eq hids, connectionsTo_eq hids, controlChannel_eq (q := 0) (by decide)]
    exact if_pos rfl

/-! ## Messages -/

/-- A value that is read back as it was sent, and within the size limit. -/
def Fits (value : NetworkValue) : Prop :=
  ∃ bytes, value.toNetwork = .ok bytes ∧ bytes.length ≤ maxMessageSize ∧ NetworkValue.deserialize bytes = .ok value

/-- The bytes of a value. -/
def wireBytes (value : NetworkValue) : Bytes :=
  match value.toNetwork with
  | .ok bytes => bytes
  | .error _ => []

theorem Fits.spec {value : NetworkValue} (h : Fits value) : value.toNetwork = .ok (wireBytes value) ∧
    (wireBytes value).length ≤ maxMessageSize ∧ NetworkValue.deserialize (wireBytes value) = .ok value := by
  obtain ⟨bytes, hser, hlen, hde⟩ := h
  have hbytes : wireBytes value = bytes := by
    unfold wireBytes
    rw [hser]
  rw [hbytes]
  exact ⟨hser, hlen, hde⟩

theorem fits_of_flat {value : NetworkValue} (h : value.FlatSendable) (hlen : value.frame.length ≤ maxMessageSize) :
    Fits value := by
  obtain ⟨hser, hde⟩ := Wire.deserialize_serialize_flat h
  exact ⟨value.frame, hser, hlen, hde⟩

theorem fits_token : Fits (.bytes syncTokenBytes) := by
  refine fits_of_flat ?_ ?_
  · show syncTokenBytes.length < 2 ^ 32
    decide
  · decide

section Messages

variable {T N : Type}

/-- What is written to the stream for a message, and read from it. -/
def framed (bytes : Bytes) : Bytes := LittleEndian.encode 4 bytes.length ++ bytes

/-- What `write_value` does. -/
def writeOps (stream : T) (bytes : Bytes) : List (Act T UInt8 N) :=
  (LittleEndian.encode 4 bytes.length).map (.send stream) ++ [.skip] ++ (bytes.map (.send stream) ++ [.skip])

/-- What `read_value` does. -/
def readOps (stream : T) (bytes : Bytes) : List (Act T UInt8 N) :=
  (LittleEndian.encode 4 bytes.length).map (.recv stream) ++ [.skip] ++ (bytes.map (.recv stream) ++ [.skip])

theorem performs_writeValue (stream : T) {value : NetworkValue} (h : Fits value) :
    (writeValue stream value : StreamTask T N Unit).Performs (writeOps stream (wireBytes value)) () := by
  obtain ⟨hser, hlen, -⟩ := h.spec
  unfold writeValue
  show StreamTask.Performs _ ([] ++ writeOps stream (wireBytes value)) ()
  refine (StreamTask.performs_lift hser).bind ?_
  rw [if_neg (Nat.not_lt.mpr hlen)]
  exact (StreamTask.performs_writeAll stream _).bind (StreamTask.performs_writeAll stream _)

theorem performs_readValue (stream : T) {value : NetworkValue} (h : Fits value) :
    (readValue stream : StreamTask T N NetworkValue).Performs (readOps stream (wireBytes value)) value := by
  obtain ⟨-, hlen, hde⟩ := h.spec
  have hlt : (wireBytes value).length < 256 ^ 4 := by
    unfold maxMessageSize at hlen
    omega
  have hcount : (LittleEndian.encode 4 (wireBytes value).length).length = 4 := LittleEndian.length_encode _ _
  unfold readValue readOps
  have hread := StreamTask.performs_readExact (N := N) stream (LittleEndian.encode 4 (wireBytes value).length)
  rw [hcount] at hread
  refine hread.bind ?_
  rw [LittleEndian.decode_encode_of_lt hlt, if_neg (Nat.not_lt.mpr hlen)]
  have hbody := (StreamTask.performs_readExact (N := N) stream (wireBytes value)).bind
    (f := fun buf => .lift (NetworkValue.deserialize buf)) (StreamTask.performs_lift hde)
  rwa [List.append_nil] at hbody

variable [DecidableEq T]

theorem sent_writeOps (d stream : T) (bytes : Bytes) :
    (writeOps stream bytes : List (Act T UInt8 N)).filterMap (Act.sent? d) =
      if stream = d then framed bytes else [] := by
  simp only [writeOps, framed, List.filterMap_append, Act.filterMap_sent_send, List.filterMap_cons, Act.sent_skip,
    List.filterMap_nil, List.append_nil]
  split
  · rfl
  · rfl

theorem received_readOps (d stream : T) (bytes : Bytes) :
    (readOps stream bytes : List (Act T UInt8 N)).filterMap (Act.received? d) =
      if stream = d then framed bytes else [] := by
  simp only [readOps, framed, List.filterMap_append, Act.filterMap_received_recv, List.filterMap_cons,
    Act.received_skip, List.filterMap_nil, List.append_nil]
  split
  · rfl
  · rfl

theorem received_writeOps (d stream : T) (bytes : Bytes) :
    (writeOps stream bytes : List (Act T UInt8 N)).filterMap (Act.received? d) = [] := by
  simp only [writeOps, List.filterMap_append, Act.filterMap_received_send]
  rfl

theorem sent_readOps (d stream : T) (bytes : Bytes) :
    (readOps stream bytes : List (Act T UInt8 N)).filterMap (Act.sent? d) = [] := by
  simp only [readOps, List.filterMap_append, Act.filterMap_sent_recv]
  rfl

end Messages

/-! ## Steps -/

/-- The neighbour of a party in a direction. -/
def neighbour (p : Party) : Dir → Party
  | .next => p + 1
  | .prev => p + 2

namespace JointStep

/-- The values of an exchange fit. -/
def Fits : JointStep → Prop
  | .sync => True
  | .exchange _ value => ∀ p, Sessions.Fits (value p)

/-- What the party `p` is to receive: the value of the neighbour that sends to it. -/
def result (p : Party) : JointStep → Option NetworkValue
  | .sync => none
  | .exchange dir value => some (value (neighbour p dir.flip))

/-- What the party `p` writes, and to whom. -/
def writes (p : Party) : JointStep → List (Party × Bytes)
  | .sync => [(p + 1, wireBytes (.bytes syncTokenBytes)), (p + 2, wireBytes (.bytes syncTokenBytes))]
  | .exchange dir value => [(neighbour p dir, wireBytes (value p))]

/-- What the party `p` reads, and from whom. -/
def reads (p : Party) : JointStep → List (Party × Bytes)
  | .sync => [(p + 1, wireBytes (.bytes syncTokenBytes)), (p + 2, wireBytes (.bytes syncTokenBytes))]
  | .exchange dir value => [(neighbour p dir.flip, wireBytes (value (neighbour p dir.flip)))]

/-- All operations of the writes. -/
def writing (p : Party) (s : JointStep) : List (Act Party UInt8 StepNote) :=
  (s.writes p).flatMap fun x => writeOps x.1 x.2

/-- All operations of the reads. -/
def reading (p : Party) (s : JointStep) : List (Act Party UInt8 StepNote) :=
  (s.reads p).flatMap fun x => readOps x.1 x.2

/-- The operations of the party `p` in the step `k`, with their stages. -/
def script (p : Party) (k : Nat) (s : JointStep) : List (Nat × Act Party UInt8 StepNote) :=
  (3 * k, .note (.started k)) :: ((s.writing p).map (Prod.mk (3 * k + 1)) ++ ((s.reading p).map (Prod.mk (3 * k + 2)) ++
    [(3 * k + 3, .note (.returned k (s.result p)))]))

theorem performs_sync (p : Party) :
    (TcpControlChannel.sync ⟨p + 1, p + 2⟩ : StreamTask Party StepNote Unit).Performs
      (writing p .sync ++ reading p .sync) () := by
  have hcheck : ∀ party, (StreamTask.lift (checkSyncToken party (.bytes syncTokenBytes)) :
      StreamTask Party StepNote Unit).Performs [] () := fun party => StreamTask.performs_lift rfl
  have hops : writing p .sync ++ reading p .sync = writeOps (p + 1) (wireBytes (.bytes syncTokenBytes)) ++
      (writeOps (p + 2) (wireBytes (.bytes syncTokenBytes)) ++
        (readOps (p + 1) (wireBytes (.bytes syncTokenBytes)) ++ ([] ++
          (readOps (p + 2) (wireBytes (.bytes syncTokenBytes)) ++ [])))) := by
    simp [writing, reading, writes, reads]
  rw [hops]
  refine (performs_writeValue _ fits_token).bind ((performs_writeValue _ fits_token).bind ?_)
  refine (performs_readValue _ fits_token).bind ((hcheck "next").bind ?_)
  exact (performs_readValue _ fits_token).bind (hcheck "prev")

theorem performs_perform {s : JointStep} (h : s.Fits) (p : Party) :
    (s.perform ⟨p + 1, p + 2⟩ p).Performs (s.writing p ++ s.reading p) (s.result p) := by
  cases s with
  | sync =>
    have hsync := (performs_sync p).bind (StreamTask.performs_pure (none : Option NetworkValue))
      (f := fun _ => pure none)
    rwa [List.append_nil] at hsync
  | exchange dir value =>
    have hops : writing p (.exchange dir value) ++ reading p (.exchange dir value) =
        writeOps (neighbour p dir) (wireBytes (value p)) ++
          (readOps (neighbour p dir.flip) (wireBytes (value (neighbour p dir.flip))) ++ []) := by
      simp [writing, reading, writes, reads]
    rw [hops]
    cases dir with
    | next =>
      exact (performs_writeValue _ (h p)).bind ((performs_readValue _ (h _)).bind (StreamTask.performs_pure _))
    | prev =>
      exact (performs_writeValue _ (h p)).bind ((performs_readValue _ (h _)).bind (StreamTask.performs_pure _))

/-- The notes of a step. -/
theorem note_mem_script {s : JointStep} {p : Party} {k r : Nat} {e : StepNote} :
    (r, .note e) ∈ s.script p k ↔
      (r = 3 * k ∧ e = .started k) ∨ (r = 3 * k + 3 ∧ e = .returned k (s.result p)) := by
  have hwriting : (.note e : Act Party UInt8 StepNote) ∉ s.writing p := by
    simp [writing, writeOps]
  have hreading : (.note e : Act Party UInt8 StepNote) ∉ s.reading p := by
    simp [reading, readOps]
  simp [script, hwriting, hreading]

/-- The stages of a step go up. -/
theorem sorted_script (s : JointStep) (p : Party) (k : Nat) : (s.script p k).Pairwise fun x y => x.1 ≤ y.1 := by
  unfold script
  refine List.pairwise_cons.mpr ⟨?_, StreamNetwork.sorted_map_mk_append
    (StreamNetwork.sorted_map_mk_append (List.pairwise_singleton _ _) ?_) ?_⟩
  · intro x hx
    simp only [List.mem_append, List.mem_map, List.mem_singleton] at hx
    rcases hx with ⟨a, -, rfl⟩ | ⟨a, -, rfl⟩ | rfl <;> dsimp only <;> omega
  · intro y hy
    rw [List.mem_singleton.mp hy]
    exact Nat.le_succ _
  · intro y hy
    simp only [List.mem_append, List.mem_map, List.mem_singleton] at hy
    rcases hy with ⟨a, -, rfl⟩ | rfl <;> dsimp only <;> omega

theorem le_of_mem_script {s : JointStep} {p : Party} {k : Nat} {x : Nat × Act Party UInt8 StepNote}
    (h : x ∈ s.script p k) : 3 * k ≤ x.1 ∧ x.1 ≤ 3 * k + 3 := by
  simp only [script, List.mem_cons, List.mem_append, List.mem_map] at h
  rcases h with rfl | ⟨a, -, rfl⟩ | ⟨a, -, rfl⟩ | rfl | h
  all_goals first | exact absurd h List.not_mem_nil | (dsimp only; omega)

/-- What is picked from the script of a step, if no note is. -/
theorem picks_script {γ : Type} {f : Act Party UInt8 StepNote → Option γ} (hnote : ∀ e, f (.note e) = none)
    (s : JointStep) (p : Party) (k : Nat) : StreamNetwork.picks f (s.script p k) =
      ((s.writing p).filterMap f).map (Prod.mk (3 * k + 1)) ++
        ((s.reading p).filterMap f).map (Prod.mk (3 * k + 2)) := by
  have hstart : script p k s = [(3 * k, .note (.started k))] ++ ((s.writing p).map (Prod.mk (3 * k + 1)) ++
      ((s.reading p).map (Prod.mk (3 * k + 2)) ++ [(3 * k + 3, .note (.returned k (s.result p)))])) := rfl
  have hone : ∀ (r : Nat) (e : StepNote), StreamNetwork.picks f [(r, .note e)] = [] := by
    intro r e
    unfold StreamNetwork.picks
    rw [List.filterMap_cons_none (by rw [hnote]; rfl)]
    rfl
  rw [hstart, StreamNetwork.picks_append, StreamNetwork.picks_append, StreamNetwork.picks_append,
    StreamNetwork.picks_map_mk, StreamNetwork.picks_map_mk, hone, hone, List.nil_append, List.append_nil]

theorem sends_script (s : JointStep) (p q : Party) (k : Nat) : StreamNetwork.sends p (s.script q k) =
    ((s.writes q).flatMap fun x => if x.1 = p then framed x.2 else []).map (Prod.mk (3 * k + 1)) := by
  have hwriting : (s.writing q).filterMap (Act.sent? p) =
      (s.writes q).flatMap fun x => if x.1 = p then framed x.2 else [] := by
    unfold writing
    rw [List.filterMap_flatMap]
    exact congrArg (List.flatMap · _) (funext fun x => sent_writeOps p x.1 x.2)
  have hreading : (s.reading q).filterMap (Act.sent? p) = [] := by
    unfold reading
    rw [List.filterMap_flatMap, List.flatMap_eq_nil_iff]
    exact fun x _ => sent_readOps p x.1 x.2
  unfold StreamNetwork.sends
  rw [picks_script (fun _ => rfl), hwriting, hreading]
  exact List.append_nil _

theorem recvs_script (s : JointStep) (p q : Party) (k : Nat) : StreamNetwork.recvs q (s.script p k) =
    ((s.reads p).flatMap fun x => if x.1 = q then framed x.2 else []).map (Prod.mk (3 * k + 2)) := by
  have hreading : (s.reading p).filterMap (Act.received? q) =
      (s.reads p).flatMap fun x => if x.1 = q then framed x.2 else [] := by
    unfold reading
    rw [List.filterMap_flatMap]
    exact congrArg (List.flatMap · _) (funext fun x => received_readOps q x.1 x.2)
  have hwriting : (s.writing p).filterMap (Act.received? q) = [] := by
    unfold writing
    rw [List.filterMap_flatMap, List.flatMap_eq_nil_iff]
    exact fun x _ => received_writeOps q x.1 x.2
  unfold StreamNetwork.recvs
  rw [picks_script (fun _ => rfl), hwriting, hreading]
  exact List.nil_append _

/-- What a party reads from another one in a step is what that one writes to it. -/
theorem writes_eq_reads (s : JointStep) (p q : Party) :
    ((s.writes q).flatMap fun x => if x.1 = p then framed x.2 else []) =
      (s.reads p).flatMap fun x => if x.1 = q then framed x.2 else [] := by
  have hends : ∀ p q : Party, q + 1 = p ↔ p + 2 = q := by decide
  cases s with
  | sync =>
    have hback : q + 2 = p ↔ p + 1 = q := (hends q p).symm
    have hself : ¬ (p + 1 = q ∧ p + 2 = q) := by
      rintro ⟨h₁, h₂⟩
      exact absurd (h₁.trans h₂.symm) (by decide +revert)
    simp only [writes, reads, List.flatMap_cons, List.flatMap_nil, List.append_nil, hends p q, hback]
    by_cases h₁ : p + 1 = q
    · have h₂ : ¬ p + 2 = q := fun h₂ => hself ⟨h₁, h₂⟩
      rw [if_pos h₁, if_neg h₂, List.append_nil, List.nil_append]
    · rw [if_neg h₁, List.append_nil, List.nil_append]
  | exchange dir value =>
    have hneighbour : neighbour q dir = p ↔ neighbour p dir.flip = q := by
      cases dir with
      | next => exact hends p q
      | prev => exact (hends q p).symm
    simp only [writes, reads, List.flatMap_cons, List.flatMap_nil, List.append_nil]
    by_cases h : neighbour p dir.flip = q
    · rw [if_pos h, if_pos (hneighbour.mpr h), h]
    · rw [if_neg h, if_neg fun h' => h (hneighbour.mp h')]

/-- In a `sync` every party sends a token to both others. -/
theorem token_mem_script {p q : Party} (hpq : p ≠ q) (k : Nat) :
    ∃ b, (3 * k + 1, .send p b) ∈ script q k .sync := by
  have hothers : ∀ p q : Party, p ≠ q → p = q + 1 ∨ p = q + 2 := by decide
  have hfirst : ∀ stream : Party, ∃ b, (.send stream b : Act Party UInt8 StepNote) ∈
      writeOps stream (wireBytes (.bytes syncTokenBytes)) := by
    intro stream
    refine ⟨UInt8.ofNat (wireBytes (.bytes syncTokenBytes)).length, ?_⟩
    simp [writeOps, LittleEndian.encode]
  obtain ⟨b, hb⟩ := hfirst p
  refine ⟨b, List.mem_cons_of_mem _ (List.mem_append_left _ (List.mem_map_of_mem ?_))⟩
  rcases hothers p q hpq with rfl | rfl
  · exact List.mem_flatMap.mpr ⟨_, List.mem_cons_self, hb⟩
  · exact List.mem_flatMap.mpr ⟨_, List.mem_cons_of_mem _ List.mem_cons_self, hb⟩

end JointStep

/-! ## Sequences of steps -/

/-- The operations of the party `p` in the steps, from the number `k` on. -/
def scriptFrom (p : Party) : Nat → List JointStep → List (Nat × Act Party UInt8 StepNote)
  | _, [] => []
  | k, s :: steps => s.script p k ++ scriptFrom p (k + 1) steps

theorem performs_runSteps (p : Party) {steps : List JointStep} (h : ∀ s ∈ steps, s.Fits) (k : Nat) :
    (runSteps ⟨p + 1, p + 2⟩ p k steps).Performs ((scriptFrom p k steps).map Prod.snd) () := by
  induction steps generalizing k with
  | nil => exact StreamTask.performs_pure ()
  | cons s steps ih =>
    have hperform := JointStep.performs_perform (h s List.mem_cons_self) p
    have hrest := ih (fun s hs => h s (List.mem_cons_of_mem _ hs)) (k + 1)
    have hops : (scriptFrom p k (s :: steps)).map Prod.snd = [.note (.started k)] ++ ((s.writing p ++ s.reading p) ++
        ([.note (.returned k (s.result p))] ++ (scriptFrom p (k + 1) steps).map Prod.snd)) := by
      simp [scriptFrom, JointStep.script, Function.comp_def]
    rw [hops]
    refine (StreamTask.performs_note _).bind (hperform.bind ?_)
    exact (StreamTask.performs_note _).bind hrest

theorem mem_scriptFrom {p : Party} {x : Nat × Act Party UInt8 StepNote} {steps : List JointStep} {k : Nat} :
    x ∈ scriptFrom p k steps ↔ ∃ (i : Nat) (s : JointStep), steps[i]? = some s ∧ x ∈ s.script p (k + i) := by
  induction steps generalizing k with
  | nil => simp [scriptFrom]
  | cons s steps ih =>
    unfold scriptFrom
    rw [List.mem_append, ih]
    constructor
    · rintro (h | ⟨i, s', hs', h⟩)
      · exact ⟨0, s, rfl, h⟩
      · refine ⟨i + 1, s', hs', ?_⟩
        rwa [Nat.add_right_comm] at h
    · rintro ⟨i, s', hs', h⟩
      cases i with
      | zero =>
        cases hs'
        exact Or.inl h
      | succ i =>
        refine Or.inr ⟨i, s', hs', ?_⟩
        rwa [Nat.add_right_comm]

theorem sorted_scriptFrom (p : Party) (steps : List JointStep) (k : Nat) :
    (scriptFrom p k steps).Pairwise fun x y => x.1 ≤ y.1 := by
  induction steps generalizing k with
  | nil => exact .nil
  | cons s steps ih =>
    refine List.pairwise_append.mpr ⟨s.sorted_script p k, ih (k + 1), ?_⟩
    intro x hx y hy
    obtain ⟨i, s', -, hy⟩ := mem_scriptFrom.mp hy
    have hlast := (JointStep.le_of_mem_script hx).2
    have hfirst := (JointStep.le_of_mem_script hy).1
    omega

theorem matches_scriptFrom (p q : Party) (steps : List JointStep) (k : Nat) :
    List.Forall₂ StreamNetwork.Matches (StreamNetwork.sends p (scriptFrom q k steps))
      (StreamNetwork.recvs q (scriptFrom p k steps)) := by
  induction steps generalizing k with
  | nil => exact .nil
  | cons s steps ih =>
    have hfirst : List.Forall₂ StreamNetwork.Matches (StreamNetwork.sends p (s.script q k))
        (StreamNetwork.recvs q (s.script p k)) := by
      rw [JointStep.sends_script, JointStep.recvs_script, JointStep.writes_eq_reads]
      exact StreamNetwork.matches_map_mk _ _
    unfold StreamNetwork.sends StreamNetwork.recvs scriptFrom
    rw [StreamNetwork.picks_append, StreamNetwork.picks_append]
    exact List.rel_append hfirst (ih (k + 1))

/-! ## Runs -/

/-- Every party does its steps and returns `Ok`. -/
def controlPlan (steps : List JointStep) : StreamNetwork.Plan Party Party UInt8 StepNote (Outcome Unit) where
  script p := scriptFrom p 0 steps
  final _ := .pure (.ok ())
  extra _ := []

theorem follows_start {identities : Party → Identity} (hids : Function.Injective identities) {steps : List JointStep}
    (h : ∀ s ∈ steps, s.Fits) : StreamNetwork.Follows streamEnds (controlPlan steps) (fun _ => [])
      (controlPlan steps).script (fun _ => []) (StreamNetwork.start (controlParty identities steps)) := by
  refine StreamNetwork.Follows.of_start (fun p => ?_) (fun e => ?_)
  · exact (StreamTask.performs_lift (channelOf_eq hids p)).bind (performs_runSteps p h 0)
  · show List.Forall₂ _ _ (_ ++ [])
    rw [List.append_nil]
    exact matches_scriptFrom e.1 e.2 steps 0

/-- The notes of a party are about its steps, at their stages. -/
theorem note_mem_script {steps : List JointStep} {p : Party} {r : Nat} {e : StepNote} :
    (r, .note e) ∈ (controlPlan steps).script p ↔ ∃ (k : Nat) (s : JointStep), steps[k]? = some s ∧
      ((r = 3 * k ∧ e = .started k) ∨ (r = 3 * k + 3 ∧ e = .returned k (s.result p))) := by
  unfold controlPlan
  dsimp only
  rw [mem_scriptFrom]
  constructor
  · rintro ⟨k, s, hs, h⟩
    rw [Nat.zero_add] at h
    exact ⟨k, s, hs, JointStep.note_mem_script.mp h⟩
  · rintro ⟨k, s, hs, h⟩
    refine ⟨k, s, hs, ?_⟩
    rw [Nat.zero_add]
    exact JointStep.note_mem_script.mpr h

section Runs

variable {steps : List JointStep} {past ops : Party → List (Nat × Act Party UInt8 StepNote)}
  {queue : Party × Party → List (Nat × UInt8)}
  {c : StreamNetwork.Config Party Party UInt8 StepNote (Outcome Unit)}

/-- A party that has returned from a step has received what it is to receive there. -/
theorem result_of_returned (h : StreamNetwork.Follows streamEnds (controlPlan steps) past ops queue c) {p : Party}
    {k : Nat} {received : Option NetworkValue} (hlog : (p, .returned k received) ∈ c.log) :
    (3 * k + 3, .note (.returned k received)) ∈ past p ∧ ∃ s, steps[k]? = some s ∧ received = s.result p := by
  obtain ⟨r, hpast⟩ := h.mem_log_iff.mp hlog
  have hscript : (r, .note (.returned k received)) ∈ (controlPlan steps).script p := by
    rw [h.script]
    exact List.mem_append_left _ hpast
  obtain ⟨k', s, hs, hnote⟩ := note_mem_script.mp hscript
  rcases hnote with ⟨-, hnote⟩ | ⟨rfl, hnote⟩
  · cases hnote
  · cases hnote
    exact ⟨hpast, s, hs, rfl⟩

/-- A party that has returned from a `sync` has received the tokens of both others, which had started theirs. -/
theorem started_of_returned (h : StreamNetwork.Follows streamEnds (controlPlan steps) past ops queue c)
    {p q : Party} {k : Nat} (hsync : steps[k]? = some .sync) {received : Option NetworkValue}
    (hlog : (p, .returned k received) ∈ c.log) : (q, .started k) ∈ c.log := by
  have hsorted : ∀ p, ((controlPlan steps).script p).Pairwise fun x y => x.1 ≤ y.1 :=
    fun p => sorted_scriptFrom p steps 0
  have hpast := (result_of_returned h hlog).1
  have hstarted : (3 * k, .note (.started k)) ∈ (controlPlan steps).script q :=
    note_mem_script.mpr ⟨k, .sync, hsync, Or.inl ⟨rfl, rfl⟩⟩
  refine h.mem_log_iff.mpr ⟨3 * k, ?_⟩
  by_cases hpq : p = q
  · subst hpq
    exact h.mem_past_of_lt hsorted hpast hstarted (Nat.lt_add_of_pos_right (by decide))
  · obtain ⟨b, hb⟩ := JointStep.token_mem_script hpq k
    have hsend : (3 * k + 1, .send p b) ∈ (controlPlan steps).script q := by
      refine mem_scriptFrom.mpr ⟨k, .sync, hsync, ?_⟩
      rwa [Nat.zero_add]
    have hsent := h.sent hsorted (d := q) rfl rfl hpast hsend (Nat.lt_succ_self _)
    exact h.mem_past_of_lt hsorted hsent hstarted (Nat.lt_succ_self _)

end Runs

/-- **The barrier**: for every sequence of joint steps, in every run of the three parties, whatever the chunks and the
order are, a party returns from a `sync` only when all parties have started it, no party fails, and what is received in
an exchange is the value the neighbour sends in it. The runs end, and then every party has returned from all steps. -/
theorem control_channel_barrier {identities : Party → Identity} (hids : Function.Injective identities)
    {steps : List JointStep} (hsteps : ∀ s ∈ steps, s.Fits) :
    ∃ n, ∀ acts t, Transition.run (StreamNetwork.step streamEnds)
        (StreamNetwork.start (controlParty identities steps)) acts = some t →
      acts.length ≤ n ∧
      (∀ p q k received, steps[k]? = some .sync → (p, StepNote.returned k received) ∈ t.log →
        (q, .started k) ∈ t.log) ∧
      (∀ p k received, (p, StepNote.returned k received) ∈ t.log → ∃ s, steps[k]? = some s ∧ received = s.result p) ∧
      (∀ p o, t.proc p = .pure o → o = .ok ()) ∧
      (Transition.Terminal (StreamNetwork.step streamEnds) t → ∀ p, t.proc p = .pure (.ok ()) ∧
        ∀ (k : Nat) (s : JointStep), steps[k]? = some s → (p, .returned k (s.result p)) ∈ t.log) := by
  refine ⟨∑ p, ((controlPlan steps).script p).length, ?_⟩
  intro acts t hrun
  have hinvolutive : Function.Involutive streamEnds := Prod.swap_swap
  obtain ⟨past, ops, queue, h, hlen⟩ :=
    (follows_start hids hsteps).run hinvolutive (fun _ => ⟨_, rfl⟩) hrun
  refine ⟨by omega, fun p q k received hsync => started_of_returned h hsync,
    fun p k received hlog => (result_of_returned h hlog).2, ?_, ?_⟩
  · intro p o hp
    obtain ⟨-, hfinal⟩ := h.final_of_halted (p := p) (by rw [hp]; trivial)
    rw [hp] at hfinal
    cases hfinal
    rfl
  · intro hterm p
    have hnil : ∀ p, ops p = [] := by
      rcases h.progress fun p => sorted_scriptFrom p steps 0 with hnil | ⟨q, m, u, -, hu⟩
      · exact hnil
      · rw [hterm (q, m)] at hu
        cases hu
    refine ⟨h.proc_eq (hnil p), fun k s hs => h.mem_log_iff.mpr ⟨3 * k + 3, ?_⟩⟩
    have hpast : past p = (controlPlan steps).script p := by
      rw [h.script, hnil, List.append_nil]
    rw [hpast]
    exact note_mem_script.mpr ⟨k, s, hs, Or.inr ⟨rfl, rfl⟩⟩

/-- Two barriers, with an exchange in each direction between them. -/
def barrierSteps : List JointStep :=
  [.sync, .exchange .next fun p => .bytes [UInt8.ofNat p], .exchange .prev fun _ => .ringElement16 5, .sync]

theorem control_channel_barrier_steps :
    ∃ n, ∀ acts t, Transition.run (StreamNetwork.step streamEnds)
        (StreamNetwork.start (controlParty (fun p => if p = 0 then "0" else if p = 1 then "1" else "2") barrierSteps))
        acts = some t →
      acts.length ≤ n ∧
      (∀ p q k received, barrierSteps[k]? = some .sync → (p, StepNote.returned k received) ∈ t.log →
        (q, .started k) ∈ t.log) ∧
      (∀ p k received, (p, StepNote.returned k received) ∈ t.log →
        ∃ s, barrierSteps[k]? = some s ∧ received = s.result p) ∧
      (∀ p o, t.proc p = .pure o → o = .ok ()) ∧
      (Transition.Terminal (StreamNetwork.step streamEnds) t → ∀ p, t.proc p = .pure (.ok ()) ∧
        ∀ (k : Nat) (s : JointStep), barrierSteps[k]? = some s → (p, .returned k (s.result p)) ∈ t.log) := by
  refine control_channel_barrier (by decide) ?_
  intro s hs
  unfold barrierSteps at hs
  simp only [List.mem_cons, List.not_mem_nil, or_false] at hs
  rcases hs with rfl | rfl | rfl | rfl
  · trivial
  · refine fun p => fits_of_flat ?_ ?_
    · show 1 < 2 ^ 32
      decide
    · show 6 ≤ maxMessageSize
      decide
  · refine fun p => fits_of_flat trivial ?_
    show 3 ≤ maxMessageSize
    decide
  · trivial

end AmpcCommon.Sessions
