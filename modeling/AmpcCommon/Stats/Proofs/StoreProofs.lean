import AmpcCommon.Base.DatabaseCalls
import AmpcCommon.Base.SerialDatabase
import AmpcCommon.Protocol.Proofs.PermutationProofs
import AmpcCommon.Stats.Proofs.StoreInvariantProofs

/-!
# Inserting a batch

The loop of an insert keeps that its transaction has made the rows of the chunks so far (`Inserting`), so that the one
transaction that it can commit has all rows (`insertChunks_safe`). Who reads the table sees all of them or none
(`IsHistory.all_or_none`).
-/

namespace AmpcCommon.Stats

open Database RelyGuarantee

/-! ## Chunks -/

section Chunks

variable {α : Type} {size : Nat}

theorem chunks_nil (hsize : 0 < size) : Protocol.chunks size ([] : List α) = [] := by
  unfold Protocol.chunks
  rw [List.length_nil, Nat.div_eq_of_lt (by omega)]
  rfl

theorem chunks_of_length_le {l : List α} (hne : l ≠ []) (hle : l.length ≤ size) : Protocol.chunks size l = [l] := by
  have hpos := List.length_pos_iff.mpr hne
  have hcount : (l.length + size - 1) / size = 1 := by
    have hsplit : l.length + size - 1 = (l.length - 1) + size := by omega
    rw [hsplit, Nat.add_div_right _ (by omega), Nat.div_eq_of_lt (by omega)]
  unfold Protocol.chunks
  rw [hcount]
  show [(l.drop (size * 0)).take size] = [l]
  rw [Nat.mul_zero, List.drop_zero, List.take_of_length_le hle]

theorem chunks_of_lt_length (hsize : 0 < size) {l : List α} (hlt : size < l.length) :
    Protocol.chunks size l = l.take size :: Protocol.chunks size (l.drop size) := by
  have hlen : (l.take size).length = size := List.length_take_of_le hlt.le
  conv_lhs => rw [← List.take_append_drop size l]
  exact Protocol.chunks_append hsize hlen

/-- The chunks are the list, none is longer than the size, and the first one is as long as it can be. -/
theorem chunks_spec (hsize : 0 < size) (l : List α) :
    (Protocol.chunks size l).flatten = l ∧ (∀ c ∈ Protocol.chunks size l, c.length ≤ min l.length size) ∧
      (l ≠ [] → l.take size ∈ Protocol.chunks size l) := by
  induction hn : l.length using Nat.strong_induction_on generalizing l with
  | _ n ih =>
    by_cases hnil : l = []
    · subst hnil
      rw [chunks_nil hsize]
      exact ⟨rfl, fun c hc => absurd hc List.not_mem_nil, fun h => absurd rfl h⟩
    · by_cases hle : l.length ≤ size
      · rw [chunks_of_length_le hnil hle]
        refine ⟨List.flatten_singleton, fun c hc => ?_, fun _ => ?_⟩
        · rw [List.mem_singleton.mp hc]
          omega
        · rw [List.take_of_length_le hle]
          exact List.mem_singleton_self l
      · have hlt : size < l.length := not_le.mp hle
        obtain ⟨hflatten, hlengths, -⟩ := ih (l.drop size).length (by rw [List.length_drop]; omega) (l.drop size) rfl
        rw [chunks_of_lt_length hsize hlt]
        refine ⟨?_, fun c hc => ?_, fun _ => List.mem_cons_self⟩
        · rw [List.flatten_cons, hflatten, List.take_append_drop]
        · rcases List.mem_cons.mp hc with rfl | hc
          · rw [List.length_take]
            omega
          · have hbound := hlengths c hc
            rw [List.length_drop] at hbound
            omega

end Chunks

/-! ## Inserts -/

variable {C M T : Type}

/-- The rows of every statement bind no more parameters than there can be. -/
def Fits (columns : Nat) (chunks : List (List (NewRow M))) : Prop :=
  ∀ chunk ∈ chunks, chunk.length * columns ≤ maxParameters

/-- The changes are all rows of the chunks, in their order, and none of them violates the check of the table. -/
structure Inserts (schema : TableSchema M) (chunks : List (List (NewRow M))) (changes : List (Change (StatRow M))) :
    Prop where
  rows : ∃ keys : List Int, keys.length = chunks.flatten.length ∧ keys.Pairwise (· < ·) ∧
    changes = inserted (chunks.flatten.map NewRow.toRow) keys
  accepted : ∀ new ∈ chunks.flatten, schema.accepts new.info = true
  fits : Fits schema.columns chunks

/-- The check of the table on its rows. -/
def TableSchema.acceptsRow (schema : TableSchema M) (row : StatRow M) : Bool := schema.accepts row.info

theorem Inserts.nil (schema : TableSchema M) : Inserts schema [] [] :=
  ⟨⟨[], rfl, List.Pairwise.nil, rfl⟩, fun _ h => (List.not_mem_nil h).elim, fun _ h => (List.not_mem_nil h).elim⟩

theorem Inserts.isBatch {schema : TableSchema M} {chunks : List (List (NewRow M))} {changes : List (Change (StatRow M))}
    (h : Inserts schema chunks changes) : IsBatch changes := by
  obtain ⟨keys, hlength, hkeys, rfl⟩ := h.rows
  exact isBatch_inserted hlength hkeys

theorem inserted_append {rows rows' : List (Int → StatRow M)} {keys keys' : List Int}
    (h : keys.length = rows.length) :
    inserted (rows ++ rows') (keys ++ keys') = inserted rows keys ++ inserted rows' keys' :=
  List.zipWith_append h.symm

/-- One more statement. -/
theorem Inserts.snoc {schema : TableSchema M} {chunks : List (List (NewRow M))}
    {before changes : List (Change (StatRow M))} (h : Inserts schema chunks before) {chunk : List (NewRow M)}
    {owner : Int → Option (C × Nat)} {old now : Contents (StatRow M)}
    (hfits : chunk.length * schema.columns ≤ maxParameters)
    (hwrites : Writes schema.acceptsRow owner old now before (.insert (chunk.map NewRow.toRow)) changes) :
    Inserts schema (chunks ++ [chunk]) (before ++ changes) := by
  obtain ⟨keys, hlength, hkeys, rfl⟩ := h.rows
  cases hwrites with
  | @insert _ keys' hlength' hkeys' _ hafter haccepted =>
    rw [List.length_map] at hlength'
    have hflatten : (chunks ++ [chunk]).flatten = chunks.flatten ++ chunk := by
      rw [List.flatten_append, List.flatten_singleton]
    have hbefore : (inserted (chunks.flatten.map NewRow.toRow) keys).map Change.key = keys :=
      map_key_inserted (by rw [List.length_map, hlength])
    refine ⟨⟨keys ++ keys', ?_, ?_, ?_⟩, ?_, ?_⟩
    · rw [hflatten, List.length_append, List.length_append, hlength, hlength']
    · refine List.pairwise_append.mpr ⟨hkeys, hkeys', fun k hk k' hk' => ?_⟩
      rw [← hbefore] at hk
      obtain ⟨change, hmem, rfl⟩ := List.mem_map.mp hk
      exact hafter k' hk' change hmem
    · rw [hflatten, List.map_append, inserted_append (by rw [List.length_map, hlength])]
    · intro new hnew
      rw [hflatten] at hnew
      rcases List.mem_append.mp hnew with hnew | hnew
      · exact h.accepted new hnew
      · obtain ⟨change, hmem, hrow⟩ := exists_mem_inserted hlength' hnew
        exact haccepted change hmem _ hrow
    · intro chunk' hchunk'
      rcases List.mem_append.mp hchunk' with hchunk' | hchunk'
      · exact h.fits chunk' hchunk'
      · rw [List.mem_singleton.mp hchunk']
        exact hfits

/-! ## The loop -/

section Loop

variable {schema : TableSchema M} {c : C}

/-- The transaction of an insert that has made the rows of some chunks, if its connection is not lost. -/
def Inserting (schema : TableSchema M) (chunks : List (List (NewRow M))) (c : C) (n : Nat) (v : View C (StatRow M)) :
    Prop :=
  v.tx c = .closed ∨ ∃ changes, v.tx c = .running n changes ∧ Inserts schema chunks changes

theorem Inserting.opened {chunks : List (List (NewRow M))} {n : Nat} {v : View C (StatRow M)}
    (h : Inserting schema chunks c n v) : v.Open c := by
  rcases h with hclosed | ⟨changes, hrunning, -⟩
  · exact Or.inl hclosed
  · exact Or.inr ⟨n, changes, hrunning⟩

theorem Inserting.extends {chunks : List (List (NewRow M))} {n : Nat} {v w : View C (StatRow M)}
    (h : Inserting schema chunks c n v) (hextends : v.Extends c w) : Inserting schema chunks c n w := by
  rcases hextends.tx with htx | ⟨-, hclosed⟩
  · unfold Inserting
    rw [htx]
    exact h
  · exact Or.inl hclosed

/-- The transaction that an insert commits. -/
def Commits (schema : TableSchema M) (chunks : List (List (NewRow M))) (c : C) (n : Nat) (e : Commit C (StatRow M)) :
    Prop :=
  e.label = (c, n) ∧ Inserts schema chunks e.changes

/-- What an insert leaves: if it has returned `Ok`, its client has seen its transaction committed. -/
structure Inserted (schema : TableSchema M) (chunks : List (List (NewRow M))) (c : C) (n : Nat)
    (v₀ : View C (StatRow M)) (result : Outcome Unit) (v : View C (StatRow M)) : Prop
    extends Rests StoreInv c v₀ v where
  committed : result = .ok () → chunks ≠ [] → ∃ e ∈ v.log.take (v.seen c), Commits schema chunks c n e

theorem Inserted.extends {chunks : List (List (NewRow M))} {n : Nat} {result : Outcome Unit}
    {v₀ v w : View C (StatRow M)} (h : Inserted schema chunks c n v₀ result v) (hw : StoreInv w)
    (hextends : v.Extends c w) : Inserted schema chunks c n v₀ result w := by
  refine ⟨h.toRests.extends hw hextends, fun hresult hchunks => ?_⟩
  rw [hextends.seen, h.inv.labelled.take_seen hextends.log]
  exact h.committed hresult hchunks

theorem Inserting.commits {chunks : List (List (NewRow M))} {n : Nat} {v : View C (StatRow M)}
    (h : Inserting schema chunks c n v) {number : Nat} {changes : List (Change (StatRow M))}
    (hrunning : v.tx c = .running number changes) : Commits schema chunks c n ⟨c, number, changes⟩ := by
  rcases h with hclosed | ⟨changes', hrunning', hinserts⟩
  · rw [hclosed] at hrunning
    cases hrunning
  · rw [hrunning'] at hrunning
    cases hrunning
    exact ⟨rfl, hinserts⟩

variable {server : Server C (StatRow M)}

/-- The return of an insert. -/
theorem inserted_safe {perform : (o : Request (StatRow M)) → server.Choice → server.State →
    Option (Answer (StatRow M) × server.State)} {E : Commit C (StatRow M) → Prop} {chunks : List (List (NewRow M))}
    {n : Nat} {v₀ : View C (StatRow M)} {result : Outcome Unit} {t : server.State}
    (h : Inserted schema chunks c n v₀ result (server.view t)) :
    Safe perform (Others c server StoreInv) (Does server StoreInv E)
      (fun result t => Inserted schema chunks c n v₀ result (server.view t)) (pure result) t := by
  refine Safe.pure fun t' ht' => ?_
  obtain ⟨hinv, hextends⟩ := ht' h.inv
  exact h.extends hinv hextends

variable [DecidableEq C]

/-- The end of an insert that has failed. -/
theorem rollback_safe (hserver : server.Documented schema.acceptsRow) {E : Commit C (StatRow M) → Prop}
    {chunks : List (List (NewRow M))} {n : Nat} {v₀ : View C (StatRow M)} {e : String} {s : server.State}
    (hinv : StoreInv (server.view s)) (hbefore : v₀.Before c (server.view s)) :
    Safe (server.perform c) (Others c server StoreInv) (Does server StoreInv E)
      (fun result t => Inserted schema chunks c n v₀ result (server.view t))
      (do let _ ← ask .rollback; return .bail e : StoreProgram M (Outcome Unit)) s := by
  refine safe_request hserver fun s' hs' answer t hallowed => ?_
  obtain ⟨hinv', hextends⟩ := hs' hinv
  obtain ⟨hlog, hlate, hidle⟩ := hallowed.rollback_spec
  refine ⟨(storeInv_invariant _).does_nothing .rollback hallowed hlog hlate, inserted_safe ?_⟩
  exact ⟨⟨hinv'.step .rollback hallowed, hidle,
    hallowed.before hinv'.labelled (hbefore.extends hextends)⟩, fun h => by cases h⟩

theorem insertChunks_safe (hserver : server.Documented schema.acceptsRow) {chunks rest : List (List (NewRow M))}
    {n : Nat} {v₀ : View C (StatRow M)} {s : server.State} (hinv : StoreInv (server.view s))
    (hbefore : v₀.Before c (server.view s)) (htx : Inserting schema chunks c n (server.view s)) :
    Safe (server.perform c) (Others c server StoreInv)
      (Does server StoreInv (Commits schema (chunks ++ rest) c n))
      (fun result t => Inserted schema (chunks ++ rest) c n v₀ result (server.view t))
      (insertChunks schema.columns rest) s := by
  induction rest generalizing chunks s with
  | nil =>
    rw [List.append_nil]
    refine safe_request hserver fun s' hs' answer t hallowed => ?_
    obtain ⟨hinv', hextends⟩ := hs' hinv
    have htx' := htx.extends hextends
    have hinv'' := hinv'.step .commit hallowed
    have hbefore' := hallowed.before hinv'.labelled (hbefore.extends hextends)
    obtain ⟨hidle, ⟨number, changes, result, hrunning, rfl, hlog, hlate⟩ | ⟨⟨e, rfl⟩, hlog, hlate⟩⟩ :=
      hallowed.commit_spec htx'.opened
    · -- the transaction is committed
      have hcommits : Commits schema chunks c n ⟨c, number, changes⟩ := htx'.commits hrunning
      refine ⟨(storeInv_invariant _).does .commit hallowed fun e he => ?_, inserted_safe ?_⟩
      · rw [hlog, hlate, List.append_assoc, List.mem_append, List.mem_append, List.mem_singleton] at he
        rcases he with he | rfl | he
        · exact Or.inl (List.mem_append_left _ he)
        · exact Or.inr hcommits
        · exact Or.inl (List.mem_append_right _ he)
      · refine ⟨⟨hinv'', hidle, hbefore'⟩, fun _ _ => ⟨_, ?_, hcommits⟩⟩
        rw [hallowed.seen, List.take_length, hlog]
        exact List.mem_append_right _ List.mem_cons_self
    · -- the commit is refused, or its answer is lost
      refine ⟨(storeInv_invariant _).does .commit hallowed fun e he => ?_,
        rollback_safe hserver hinv'' hbefore'⟩
      rw [hlog] at he
      rcases hlate with hlate | ⟨number, changes, hrunning, hlate⟩
      · rw [hlate] at he
        exact Or.inl he
      · rw [hlate, ← List.append_assoc, List.mem_append, List.mem_singleton] at he
        rcases he with he | rfl
        · exact Or.inl he
        · exact Or.inr (htx'.commits hrunning)
  | cons chunk rest ih =>
    refine safe_request hserver fun s' hs' answer t hallowed => ?_
    obtain ⟨hinv', hextends⟩ := hs' hinv
    have htx' := htx.extends hextends
    have hinv'' := hinv'.step (.insert chunk (chunk.length * schema.columns)) hallowed
    have hbefore' := hallowed.before hinv'.labelled (hbefore.extends hextends)
    obtain ⟨hlog, hlate, ⟨m, number, before, changes, hrunning, hparameters, -, hwrites, rfl, hpending⟩ | ⟨e, rfl⟩⟩ :=
      hallowed.pending_spec htx'.opened fun _ _ _ => nofun
    · refine ⟨(storeInv_invariant _).does_nothing (.insert chunk _) hallowed hlog hlate, ?_⟩
      obtain ⟨hlabel, hinserts⟩ := htx'.commits hrunning
      have hchunk := hinserts.snoc hparameters hwrites
      have hrows : changes.length = chunk.length := by
        cases hwrites with
        | insert hlength =>
          rw [length_inserted hlength, List.length_map]
      obtain rfl : number = n := congrArg Prod.snd hlabel
      dsimp only
      rw [if_neg (not_not.mpr hrows)]
      have hinserting : Inserting schema (chunks ++ [chunk]) c number (server.view t) :=
        Or.inr ⟨_, hpending, hchunk⟩
      have hnext := ih hinv'' hbefore' hinserting
      rwa [List.append_assoc] at hnext
    · exact ⟨(storeInv_invariant _).does_nothing (.insert chunk _) hallowed hlog hlate,
        rollback_safe hserver hinv'' hbefore'⟩

/-! ## The batch -/

variable {serialize : T → Bytes} {origin : StoreOrigin} {operation : AnonStatsOperation}
    {anonStats : List (Int × M × T)}

/-- The rows of the statements of an insert. -/
def insertedChunks (serialize : T → Bytes) (origin : StoreOrigin) (operation : AnonStatsOperation)
    (anonStats : List (Int × M × T)) : List (List (NewRow M)) :=
  Protocol.chunks anonStatsInsertBatchSize (anonStats.map (newRow serialize origin operation))

theorem flatten_insertedChunks :
    (insertedChunks serialize origin operation anonStats).flatten = anonStats.map (newRow serialize origin operation) :=
  (chunks_spec (by decide) _).1

theorem insertedChunks_ne_nil (hne : anonStats ≠ []) : insertedChunks serialize origin operation anonStats ≠ [] := by
  intro hnil
  have hflatten : (insertedChunks serialize origin operation anonStats).flatten = _ := flatten_insertedChunks
  rw [hnil] at hflatten
  exact hne (List.map_eq_nil_iff.mp hflatten.symm)

theorem insertAnonStatsBatch_safe (hserver : server.Documented schema.acceptsRow) {s : server.State}
    (hinv : StoreInv (server.view s)) (hidle : (server.view s).tx c = .idle) :
    Safe (server.perform c) (Others c server StoreInv)
      (Does server StoreInv
        (Commits schema (insertedChunks serialize origin operation anonStats) c ((server.view s).count c)))
      (fun result t => Inserted schema (insertedChunks serialize origin operation anonStats) c
        ((server.view s).count c) (server.view s) result (server.view t))
      (insertAnonStatsBatch schema serialize anonStats origin operation) s := by
  unfold insertAnonStatsBatch
  split_ifs with hempty
  · have hrests : Rests StoreInv c (server.view s) (server.view s) := ⟨hinv, hidle, View.Before.refl _ _⟩
    refine inserted_safe ⟨hrests, fun _ hchunks => absurd ?_ hchunks⟩
    rw [List.isEmpty_iff.mp hempty]
    exact chunks_nil (by decide)
  · refine safe_request hserver fun s' hs' answer t hallowed => ?_
    obtain ⟨hinv', hextends⟩ := hs' hinv
    have hbegun := hinv'.step .begin hallowed
    have hbefore := hallowed.before hinv'.labelled ((View.Before.refl c (server.view s)).extends hextends)
    obtain ⟨hlog, hlate, ⟨result, rfl, hrunning⟩ | ⟨e, rfl, htx⟩⟩ := hallowed.begin_spec
    · refine ⟨(storeInv_invariant _).does_nothing .begin hallowed hlog hlate, ?_⟩
      rw [hextends.count] at hrunning
      have hinserting : Inserting schema [] c ((server.view s).count c) (server.view t) :=
        Or.inr ⟨[], hrunning, Inserts.nil schema⟩
      exact insertChunks_safe hserver hbegun hbefore hinserting
    · refine ⟨(storeInv_invariant _).does_nothing .begin hallowed hlog hlate, inserted_safe ?_⟩
      exact ⟨⟨hbegun, htx.trans (hextends.idle hidle), hbefore⟩, fun h => by cases h⟩

theorem insertChunks_within (columns : Nat) (chunks : List (List (NewRow M))) :
    (insertChunks columns chunks).Within (chunks.length + 2) := by
  induction chunks with
  | nil =>
    refine Prog.Within.call fun answer => ?_
    cases answer with
    | error e => exact Prog.Within.call fun _ => trivial
    | ok result => trivial
  | cons chunk rest ih =>
    refine Prog.Within.call fun answer => ?_
    have hrollback : ∀ e : String, Prog.Within
        (do let _ ← ask .rollback; return .bail e : StoreProgram M (Outcome Unit)) (rest.length + 2) :=
      fun e => Prog.Within.call fun _ => trivial
    cases answer with
    | error e => exact hrollback e
    | ok result =>
      dsimp only
      split_ifs
      · exact hrollback _
      · exact ih

theorem insertAnonStatsBatch_within :
    (insertAnonStatsBatch schema serialize anonStats origin operation).Within
      ((insertedChunks serialize origin operation anonStats).length + 3) := by
  unfold insertAnonStatsBatch
  split_ifs
  · trivial
  · refine Prog.Within.call fun answer => ?_
    cases answer with
    | error e => trivial
    | ok result => exact insertChunks_within schema.columns _

/-- Four columns always fit; seven do for 9362 rows. -/
theorem fits_insertedChunks :
    (schema.columns = 4 → Fits schema.columns (insertedChunks serialize origin operation anonStats)) ∧
      (schema.columns = 7 →
        (Fits schema.columns (insertedChunks serialize origin operation anonStats) ↔ anonStats.length ≤ 9362)) := by
  obtain ⟨-, hlengths, hfirst⟩ := chunks_spec (by decide : 0 < anonStatsInsertBatchSize)
    (anonStats.map (newRow (M := M) serialize origin operation))
  rw [List.length_map] at hlengths
  have hsize : anonStatsInsertBatchSize = 10000 := rfl
  have hmax : maxParameters = 65535 := rfl
  refine ⟨fun hcolumns chunk hchunk => ?_, fun hcolumns => ⟨fun hfits => ?_, fun hlength chunk hchunk => ?_⟩⟩
  · have hbound := hlengths chunk hchunk
    rw [hcolumns]
    omega
  · by_contra hlong
    have hne : anonStats.map (newRow (M := M) serialize origin operation) ≠ [] := by
      intro hnil
      rw [List.map_eq_nil_iff] at hnil
      rw [hnil] at hlong
      exact hlong (Nat.zero_le _)
    have hfit := hfits _ (hfirst hne)
    rw [hcolumns, List.length_take, List.length_map] at hfit
    omega
  · have hbound := hlengths chunk hchunk
    rw [hcolumns]
    omega

end Loop

/-! ## What others see -/

/-- The changes have all been made, or none of them. -/
def AllOrNone (changes : List (Change (StatRow M))) (log : List (Commit C (StatRow M))) : Prop :=
  (∀ change ∈ changes, history change.key log = []) ∨
    ∀ change ∈ changes, (history change.key log).head? = some change.row

/-- A row is inserted before anything else happens to it. -/
theorem IsHistory.eq_nil_of_inserted {k : Int} {before after : List (Option (StatRow M))} {row : StatRow M}
    (h : IsHistory k (before ++ some row :: after)) (hprocessed : row.processed = false) : before = [] := by
  cases before with
  | nil => rfl
  | cons version before =>
    exfalso
    rw [List.cons_append] at h
    generalize hrest : before ++ some row :: after = rest at h
    have hmem : some row ∈ rest := by
      rw [← hrest]
      exact List.mem_append_right _ List.mem_cons_self
    cases h with
    | inserted first marks hid hfirst =>
      have hrow := List.eq_of_mem_replicate hmem
      rw [Option.some.inj hrow] at hprocessed
      cases hprocessed
    | cleared first hid hfirst =>
      rw [List.mem_singleton] at hmem
      cases hmem

theorem StoreInv.all_or_none {v : View C (StatRow M)} (h : StoreInv v) {e : Commit C (StatRow M)} (he : e ∈ v.log)
    (hbatch : IsBatch e.changes) (n : Nat) : AllOrNone e.changes (v.log.take n) := by
  obtain ⟨before, after, hlog⟩ := List.append_of_mem he
  have hhistory : ∀ change ∈ e.changes, history change.key before = [] ∧
      (history change.key (before ++ [e])).head? = some change.row := by
    intro change hmem
    obtain ⟨row, hrow, hid, hprocessed⟩ := hbatch.rows change hmem
    have hkey : history change.key v.log =
        history change.key before ++ some row :: history change.key after := by
      rw [hlog, ← List.singleton_append, history_append, history_append, history_singleton,
        versions_of_nodup hbatch.nodup hmem, hrow]
      rfl
    have hnil := (hkey ▸ h.histories change.key).eq_nil_of_inserted hprocessed
    refine ⟨hnil, ?_⟩
    rw [history_append, hnil, history_singleton, versions_of_nodup hbatch.nodup hmem]
    rfl
  by_cases hn : n ≤ before.length
  · refine Or.inl fun change hmem => ?_
    have hlonger : v.log.take n <+: before := by
      rw [hlog, List.take_append_of_le_length hn]
      exact List.take_prefix _ _
    have hnil := history_longer hlonger change.key
    rw [(hhistory change hmem).1] at hnil
    exact List.prefix_nil.mp hnil
  · refine Or.inr fun change hmem => ?_
    have hlonger : before ++ [e] <+: v.log.take n := by
      rw [List.prefix_take_iff]
      refine ⟨⟨after, ?_⟩, ?_⟩
      · rw [hlog, List.append_assoc, List.singleton_append]
      · rw [List.length_append, List.length_singleton]
        omega
    obtain ⟨more, hmore⟩ := history_longer hlonger change.key
    obtain ⟨rest, hrest⟩ := List.head?_eq_some_iff.mp (hhistory change hmem).2
    rw [← hmore, hrest]
    rfl

/-- **An insert is atomic.** At every moment of every run, all that an insert has committed, or can still commit, is one
transaction with all rows; whoever reads the table sees all of them or none; and when it has returned `Ok`, they are
committed. -/
theorem insertAnonStatsBatch_atomic [DecidableEq C] {schema : TableSchema M} {server : Server C (StatRow M)}
    (hserver : server.Documented schema.acceptsRow) {c : C} {serialize : T → Bytes} {origin : StoreOrigin}
    {operation : AnonStatsOperation} {anonStats : List (Int × M × T)} {s t : server.State}
    (hinv : StoreInv (server.view s)) (hidle : (server.view s).tx c = .idle)
    {program : StoreProgram M (Outcome Unit)} {moves : List (Move server.Choice (Event server (storeUsage M)))}
    (hrun : Transition.run (RelyGuarantee.step (server.perform c) (server.interfere (storeUsage M) c))
      (insertAnonStatsBatch schema serialize anonStats origin operation, s) moves = some (program, t)) :
    StoreInv (server.view t) ∧
      moves.countP Move.isOwn ≤ (insertedChunks serialize origin operation anonStats).length + 3 ∧
      (∀ e ∈ (server.view t).log ++ (server.view t).late, e.client = c →
        e ∈ (server.view s).log ++ (server.view s).late ∨
          Commits schema (insertedChunks serialize origin operation anonStats) c ((server.view s).count c) e) ∧
      (∀ e ∈ (server.view t).log,
        Commits schema (insertedChunks serialize origin operation anonStats) c ((server.view s).count c) e →
          ∀ n, AllOrNone e.changes ((server.view t).log.take n)) ∧
      (program.result? = some (.ok ()) → anonStats ≠ [] → ∃ e ∈ (server.view t).log,
        Commits schema (insertedChunks serialize origin operation anonStats) c ((server.view s).count c) e) ∧
      (schema.columns = 4 → Fits schema.columns (insertedChunks serialize origin operation anonStats)) ∧
      (schema.columns = 7 →
        (Fits schema.columns (insertedChunks serialize origin operation anonStats) ↔ anonStats.length ≤ 9362)) := by
  obtain ⟨hsafe, hinv', -, hown⟩ := (storeInv_invariant schema.acceptsRow).run hserver hinv
    (insertAnonStatsBatch_safe hserver hinv hidle) hrun
  refine ⟨hinv', insertAnonStatsBatch_within.run hrun, hown, fun e he hcommits => ?_, fun hresult hne => ?_,
    fits_insertedChunks⟩
  · exact hinv'.all_or_none he hcommits.2.isBatch
  · rw [Prog.result?_eq_some hresult] at hsafe
    have hinserted := hsafe.returns Others.refl
    obtain ⟨e, he, hcommits⟩ := hinserted.committed rfl (insertedChunks_ne_nil hne)
    exact ⟨e, List.mem_of_mem_take he, hcommits⟩

/-- Another client commits a row between two requests, and the answer of the commit is lost; the two rows are committed
later. -/
def lostCommitRun : Option (StoreProgram Unit (Outcome Unit) × View Bool (StatRow Unit)) :=
  let server : Server Bool (StatRow Unit) := Serial.server anonStats1dTable.acceptsRow
  Transition.run (RelyGuarantee.step (server.perform false) (server.interfere (storeUsage Unit) false))
    (insertAnonStatsBatch anonStats1dTable (fun n : UInt8 => [n]) [(7, (), 1), (8, (), 2)]
      ⟨⟨.normal⟩, some .left, .hnsw⟩ .uniqueness, View.initial)
    [.own (.with []), .env (.request true (.insert [⟨5, (), [9], 0, 0⟩] 4) (.with [1])), .own (.with [2, 3]),
      .own ⟨[], some "connection lost", true, none⟩, .env (.internal (.with [])), .own (.with [])]

theorem insertAnonStatsBatch_atomic_lost : ∃ program t, lostCommitRun = some (program, t) ∧
    program.result? = some (.bail "connection lost") ∧
    (t.log.map fun e => (e.client, e.changes.map Change.key)) = [(true, [1]), (false, [2, 3])] ∧
    ∀ e ∈ t.log, e.client = false → ∀ n, AllOrNone e.changes (t.log.take n) := by
  obtain ⟨program, t, hrun, hresult, hlog⟩ : ∃ program t, lostCommitRun = some (program, t) ∧
      program.result? = some (.bail "connection lost") ∧
      (t.log.map fun e => (e.client, e.changes.map Change.key)) = [(true, [1]), (false, [2, 3])] :=
    ⟨_, _, rfl, rfl, rfl⟩
  obtain ⟨-, -, hown, hatomic, -⟩ :=
    insertAnonStatsBatch_atomic (Serial.server_documented _) StoreInv.initial rfl hrun
  refine ⟨program, t, hrun, hresult, hlog, fun e he hclient => hatomic e he ?_⟩
  rcases hown e (List.mem_append_left _ he) hclient with hold | hcommits
  · exact (List.not_mem_nil hold).elim
  · exact hcommits

end AmpcCommon.Stats
