import AmpcCommon.Base.DatabaseLives
import AmpcCommon.Base.SerialDatabase
import AmpcCommon.Modifications.Postgres

/-!
# The modifications table, proofs

No statement changes the reference of a row or its private input, and an id is not used twice (`IsLife`). So what is
loaded for an id is what was inserted under it, by whichever client and in whichever transaction (`CallsInv`).
-/

namespace AmpcCommon.Modifications

open Database

/-! ## Rows -/

/-- What no statement changes of a row. -/
structure SameInput (row' row : ModificationRow) : Prop where
  id : row'.id = row.id
  requestType : row'.requestType = row.requestType
  inputReference : row'.inputReference = row.inputReference
  request : row'.request = row.request

theorem SameInput.refl (row : ModificationRow) : SameInput row row := ⟨rfl, rfl, rfl, rfl⟩

theorem SameInput.trans {a b c : ModificationRow} (h : SameInput a b) (h' : SameInput b c) : SameInput a c :=
  ⟨h.id.trans h'.id, h.requestType.trans h'.requestType, h.inputReference.trans h'.inputReference,
    h.request.trans h'.request⟩

theorem ModificationRow.set_sameInput (row : ModificationRow) (m : Modification Int) : SameInput (row.set m) row :=
  ⟨rfl, rfl, rfl, rfl⟩

/-- What can happen to the row under an id: it is inserted with what its source has, updated, and perhaps deleted. -/
inductive IsLife (source : Int → Option NewModification) (k : Int) : List (Option ModificationRow) → Prop where
  | absent : IsLife source k []
  | inserted (new : NewModification) (updates : List ModificationRow) : source k = some new →
      (∀ row ∈ updates, SameInput row (new.toRow k)) → IsLife source k (some (new.toRow k) :: updates.map some)
  | deleted (new : NewModification) (updates : List ModificationRow) : source k = some new →
      (∀ row ∈ updates, SameInput row (new.toRow k)) →
      IsLife source k (some (new.toRow k) :: updates.map some ++ [none])

section Lives

variable {source : Int → Option NewModification} {k : Int} {life : List (Option ModificationRow)}
  {row : ModificationRow}

/-- A row that is there has not been deleted. -/
theorem IsLife.getLast (h : IsLife source k life) (hlast : life.getLast?.getD none = some row) :
    ∃ (new : NewModification) (updates : List ModificationRow), source k = some new ∧
      life = some (new.toRow k) :: updates.map some ∧
      (∀ row ∈ updates, SameInput row (new.toRow k)) ∧ SameInput row (new.toRow k) := by
  cases h with
  | absent => cases hlast
  | inserted new updates hsource hupdates =>
    refine ⟨new, updates, hsource, rfl, hupdates, ?_⟩
    rcases List.eq_nil_or_concat updates with rfl | ⟨before, last, rfl⟩
    · cases hlast
      exact SameInput.refl _
    · rw [List.concat_eq_append, List.map_append, ← List.cons_append, List.map_singleton, List.getLast?_concat] at hlast
      cases hlast
      refine hupdates row ?_
      rw [List.concat_eq_append]
      exact List.mem_append_right _ List.mem_cons_self
  | deleted new updates =>
    rw [List.getLast?_concat] at hlast
    cases hlast

theorem IsLife.update (h : IsLife source k life) (hlast : life.getLast?.getD none = some row) {row' : ModificationRow}
    (hsame : SameInput row' row) : IsLife source k (life ++ [some row']) := by
  obtain ⟨new, updates, hsource, rfl, hupdates, hrow⟩ := h.getLast hlast
  have hmap : updates.map some ++ [some row'] = (updates ++ [row']).map some := by
    rw [List.map_append, List.map_singleton]
  rw [List.cons_append, hmap]
  refine IsLife.inserted new (updates ++ [row']) hsource fun r hr => ?_
  rcases List.mem_append.mp hr with hr | hr
  · exact hupdates r hr
  · rw [List.mem_singleton.mp hr]
    exact hsame.trans hrow

theorem IsLife.delete (h : IsLife source k life) (hlast : life.getLast?.getD none = some row) :
    IsLife source k (life ++ [none]) := by
  obtain ⟨new, updates, hsource, rfl, hupdates, -⟩ := h.getLast hlast
  exact IsLife.deleted new updates hsource hupdates

/-- Every version has what was inserted. -/
theorem IsLife.mem (h : IsLife source k life) (hrow : some row ∈ life) :
    ∃ new, source k = some new ∧ SameInput row (new.toRow k) := by
  have hversions : ∀ {new : NewModification} {updates : List ModificationRow},
      (∀ row ∈ updates, SameInput row (new.toRow k)) → some row ∈ some (new.toRow k) :: updates.map some →
        SameInput row (new.toRow k) := by
    intro new updates hupdates hmem
    rcases List.mem_cons.mp hmem with hfirst | hmem
    · rw [Option.some.inj hfirst]
      exact SameInput.refl _
    · obtain ⟨r, hr, heq⟩ := List.mem_map.mp hmem
      rw [← Option.some.inj heq]
      exact hupdates r hr
  cases h with
  | absent => exact (List.not_mem_nil hrow).elim
  | inserted new updates hsource hupdates => exact ⟨new, hsource, hversions hupdates hrow⟩
  | deleted new updates hsource hupdates =>
    rcases List.mem_append.mp hrow with hrow | hrow
    · exact ⟨new, hsource, hversions hupdates hrow⟩
    · cases List.mem_singleton.mp hrow

theorem IsLife.mono {source' : Int → Option NewModification} (h : IsLife source k life)
    (hsource : ∀ new, source k = some new → source' k = some new) : IsLife source' k life := by
  cases h with
  | absent => exact IsLife.absent
  | inserted new updates hnew hupdates => exact IsLife.inserted new updates (hsource new hnew) hupdates
  | deleted new updates hnew hupdates => exact IsLife.deleted new updates (hsource new hnew) hupdates

/-- A statement that is no insert lets rows live on. -/
theorem ModificationQuery.respects {query : ModificationQuery}
    (hinsert : ∀ new parameters, query ≠ .insert new parameters) {statement : Statement ModificationRow}
    {parameters : Nat} (hquery : query.request = .execute statement parameters) (new : Int → Prop) :
    statement.Respects (IsLife source) new := by
  cases query with
  | begin => cases hquery
  | commit => cases hquery
  | rollback => cases hquery
  | insert new parameters => exact absurd rfl (hinsert new parameters)
  | last count =>
    cases hquery
    trivial
  | load id reference =>
    cases hquery
    trivial
  | update modifications =>
    cases hquery
    intro k life row row' hlife hlast hversion
    obtain ⟨m, -, rfl⟩ := List.mem_map.mp hversion
    exact hlife.update hlast (row.set_sameInput m)
  | delete ids =>
    cases hquery
    intro k life row hlife hlast _
    exact hlife.delete hlast
  | clear =>
    cases hquery
    intro k life row hlife hlast _
    exact hlife.delete hlast

variable {C : Type} {v : View C ModificationRow} {c : C} {n : Nat}

/-- A row that a client finds has what was inserted under its id. -/
theorem found_row (h : Lives (IsLife source) v) (hrow : v.contents c n k = some row) :
    row.id = k ∧ ∃ new, source k = some new ∧ SameInput row (new.toRow k) := by
  obtain ⟨new, hsource, hsame⟩ := (h.seen c k).mem (View.mem_of_contents hrow)
  exact ⟨hsame.id, new, hsource, hsame⟩

end Lives

/-! ## Calls -/

/-- The input is one that the storage takes. -/
def NewModification.Fits (storage : ModificationInputStorage) (new : NewModification) : Prop :=
  match storage, new.input with
  | .inline, some (.inline _ _) => True
  | .s3, some (.s3 _) => True
  | .s3, none => True
  | _, _ => False

theorem NewModification.Fits.input_eq {storage : ModificationInputStorage} {new : NewModification}
    (h : new.Fits storage) (k : Int) :
    ((new.toRow k).intoModification storage).input = new.input.map ModificationInput.toReference := by
  unfold NewModification.Fits at h
  unfold NewModification.toRow StoredModification.intoModification
  cases storage with
  | s3 =>
    cases hinput : new.input with
    | none => rfl
    | some input =>
      rw [hinput] at h
      cases input with
      | s3 reference => rfl
      | inline reference bytes => exact h.elim
  | inline =>
    cases hinput : new.input with
    | none =>
      rw [hinput] at h
      exact h.elim
    | some input =>
      rw [hinput] at h
      cases input with
      | s3 reference => exact h.elim
      | inline reference bytes => rfl

/-- A row of an inline input has its bytes. -/
theorem NewModification.Fits.inline_eq {new : NewModification} (h : new.Fits .inline) {k : Int} {reference : String}
    (hreference : (new.toRow k).inputReference = some reference) :
    ∃ bytes, new.input = some (.inline reference bytes) ∧ (new.toRow k).request = some bytes := by
  unfold NewModification.Fits at h
  unfold NewModification.toRow at hreference ⊢
  cases hinput : new.input with
  | none =>
    rw [hinput] at h
    exact h.elim
  | some input =>
    rw [hinput] at h
    cases input with
    | s3 reference => exact h.elim
    | inline reference' bytes =>
      rw [hinput] at hreference
      cases hreference
      exact ⟨bytes, rfl, rfl⟩

variable {C : Type}

/-- A call of the table that has returned. -/
abbrev ReturnedCall (C : Type) := Returned C ModificationRow ModificationCall ModificationResult

/-- What the calls return, when `source` is what the rows were inserted with. -/
structure Answers (storage : ModificationInputStorage) (source : Int → Option NewModification) (e : ReturnedCall C) :
    Prop where
  /-- An insert returns the modification of its row. -/
  insert : ∀ m, e.result = .inserted (.ok m) → ∃ new, e.call = .insert new ∧ source m.id = some new ∧
    m = (new.toRow m.id).intoModification storage
  /-- The last modifications are the first rows of a moment in the descending order of their ids. -/
  last : ∀ count ms, e.call = .last count → e.result = .modifications (.ok ms) → 0 ≤ count.toInt ∧
    (∃ n keys rows, e.before.Snapshot e.client n ∧
      Finds (e.before.contents e.client n) (fun _ => true) (fun row => -row.id) keys rows ∧
      ms = (rows.take count.toInt.toNat).map fun row => row.intoModification storage) ∧
    (ms.Pairwise fun a b => b.id < a.id) ∧
    ∀ m ∈ ms, ∃ new, source m.id = some new ∧ m.requestType = new.requestType ∧
      m.input = new.input.map ModificationInput.toReference
  /-- A reference to S3 is the input. -/
  load_s3 : ∀ m reference, e.call = .load m → storage = .s3 → m.input = some (.s3 reference) →
    e.result = .input (.ok (.s3 reference))
  /-- An inline input is loaded as it was inserted, if the database finds the row. -/
  load_inline : ∀ m reference, e.call = .load m → storage = .inline → m.input = some (.inline reference) →
    e.result = .input (.bail s!"Loading local input for modification {m.id}") ∨
      ∃ new bytes, source m.id = some new ∧ new.input = some (.inline reference bytes) ∧
        e.result = .input (.ok (.inline reference bytes))
  /-- Nothing is loaded without a reference of the storage. -/
  loaded : ∀ m input, e.call = .load m → e.result = .input (.ok input) → m.input = some input.toReference ∧
    (storage = .s3 ↔ ∃ reference, input = .s3 reference)

/-- The id of a modification that an insert has returned. -/
def insertedId (e : ReturnedCall C) : Option Int :=
  match e.result with
  | .inserted (.ok m) => some m.id
  | _ => none

/-- What holds of all runs of calls. -/
structure CallsInv (storage : ModificationInputStorage) (source : Int → Option NewModification)
    (v : View C ModificationRow) (returned : List (ReturnedCall C)) : Prop where
  lives : Lives (IsLife source) v
  called : ∀ k new, source k = some new → v.owner k ≠ none ∧ new.Fits storage ∧ ∃ e ∈ returned, e.call = .insert new
  answers : ∀ e ∈ returned, Answers storage source e
  ids : (returned.filterMap insertedId).Nodup

section Steps

variable {storage : ModificationInputStorage} {source source' : Int → Option NewModification}
  {v w : View C ModificationRow} {returned : List (ReturnedCall C)} {e : ReturnedCall C} {c : C}

theorem Answers.mono (h : Answers storage source e)
    (hsource : ∀ k new, source k = some new → source' k = some new) : Answers storage source' e := by
  refine ⟨fun m hm => ?_, fun count ms hcall hresult => ?_, h.load_s3, fun m reference hcall hstorage hinput => ?_,
    h.loaded⟩
  · obtain ⟨new, hcall, hnew, hm⟩ := h.insert m hm
    exact ⟨new, hcall, hsource _ _ hnew, hm⟩
  · obtain ⟨hcount, hfinds, hsorted, hms⟩ := h.last count ms hcall hresult
    refine ⟨hcount, hfinds, hsorted, fun m hm => ?_⟩
    obtain ⟨new, hnew, hcolumns⟩ := hms m hm
    exact ⟨new, hsource _ _ hnew, hcolumns⟩
  · rcases h.load_inline m reference hcall hstorage hinput with hfailed | ⟨new, bytes, hnew, hloaded⟩
    · exact Or.inl hfailed
    · exact Or.inr ⟨new, bytes, hsource _ _ hnew, hloaded⟩

/-- A call that reads nothing. -/
theorem Answers.of_done {call : ModificationCall} {before : View C ModificationRow} {result : Outcome Unit}
    (hlast : ∀ count, call ≠ .last count) (hload : ∀ m, call ≠ .load m) :
    Answers storage source ⟨c, call, before, .done result⟩ :=
  ⟨fun _ hresult => by (cases hresult), fun count _ hcall => absurd hcall (hlast count),
    fun m _ hcall => absurd hcall (hload m), fun m _ hcall => absurd hcall (hload m),
    fun m _ hcall => absurd hcall (hload m)⟩

/-- Without a new row. -/
theorem CallsInv.goesOn (h : CallsInv storage source v returned) (hlives : Lives (IsLife source) w)
    (howner : Keeps v.owner w.owner) (he : Answers storage source e) (hid : insertedId e = none) :
    CallsInv storage source w (returned ++ [e]) := by
  refine ⟨hlives, fun k new hk => ?_, fun e' he' => ?_, ?_⟩
  · obtain ⟨hallotted, hfits, e', he', hcall⟩ := h.called k new hk
    exact ⟨fun hnone => hallotted (howner.eq_none hnone), hfits, e', List.mem_append_left _ he', hcall⟩
  · rcases List.mem_append.mp he' with he' | he'
    · exact h.answers e' he'
    · rw [List.mem_singleton.mp he']
      exact he
  · rw [List.filterMap_append, List.filterMap_cons_none hid, List.filterMap_nil, List.append_nil]
    exact h.ids

/-- Without a request. -/
theorem CallsInv.skip (h : CallsInv storage source v returned) (he : Answers storage source e)
    (hid : insertedId e = none) : CallsInv storage source v (returned ++ [e]) :=
  h.goesOn h.lives (Keeps.refl _) he hid

/-- The sources when a row has been inserted under a key that was not allotted before. -/
def addSource (source : Int → Option NewModification) (new : NewModification) (v w : View C ModificationRow) (k : Int) :
    Option NewModification :=
  if v.owner k = none ∧ w.owner k ≠ none then some new else source k

theorem CallsInv.addSource_eq (h : CallsInv storage source v returned) (new : NewModification) {k : Int}
    {new' : NewModification} (hk : source k = some new') : addSource source new v w k = some new' := by
  unfold addSource
  rw [if_neg fun hnew => (h.called k new' hk).1 hnew.1]
  exact hk

/-- Rows that a client finds have different ids. -/
theorem ids_found (h : Lives (IsLife source) v) {n : Nat} {selects : ModificationRow → Bool}
    {order : ModificationRow → Int} {keys : List Int} {rows : List ModificationRow}
    (hfinds : Finds (v.contents c n) selects order keys rows) : (rows.map fun row => row.id).Nodup := by
  have hids : rows.map (fun row => row.id) = keys := by
    have hfound := hfinds.found
    clear hfinds
    induction hfound with
    | nil => rfl
    | cons hrow _ ih => rw [List.map_cons, (found_row h hrow).1, ih]
  rw [hids]
  exact hfinds.nodup

variable [DecidableEq C] {accepts : ModificationRow → Bool} {answer : Answer ModificationRow}

/-- A request that inserts nothing. -/
theorem CallsInv.request (h : CallsInv storage source v returned) (query : ModificationQuery)
    (hinsert : ∀ new parameters, query ≠ .insert new parameters) (hallowed : Allowed accepts c v query.request answer w)
    (he : Answers storage source e) (hid : insertedId e = none) : CallsInv storage source w (returned ++ [e]) :=
  h.goesOn (h.lives.step hallowed fun _ _ hquery => ModificationQuery.respects hinsert hquery _) hallowed.keeps he hid

/-- A row is inserted under a new key, and all others live on. -/
theorem CallsInv.lives_insert (h : CallsInv storage source v returned) {new : NewModification} {parameters : Nat}
    (hallowed : Allowed accepts c v (ModificationQuery.insert new parameters).request answer w) :
    Lives (IsLife (addSource source new v w)) w := by
  have hmix : Lives (fun k life => IsLife source k life ∨ v.owner k = none ∧ life = [some (new.toRow k)]) v :=
    h.lives.mono fun k life hlife _ => Or.inl hlife
  have hstep := hmix.step hallowed fun statement parameters hquery => by
    cases hquery
    intro make hmake k hk
    rw [List.mem_singleton.mp hmake]
    exact Or.inr ⟨hk, rfl⟩
  refine hstep.mono fun k life hlife hfresh => ?_
  rcases hlife with hlife | ⟨hk, rfl⟩
  · exact hlife.mono fun new' hnew' => h.addSource_eq new hnew'
  · have hallotted : w.owner k ≠ none := fun hnone => by cases hfresh hnone
    exact IsLife.inserted new [] (if_pos ⟨hk, hallotted⟩) fun _ hmem => (List.not_mem_nil hmem).elim

theorem insertResult_eq_ok {m : Modification Int} (h : insertResult storage answer = .ok m) :
    ∃ (result : Result ModificationRow) (row : ModificationRow), answer = .ok result ∧ result.rows.head? = some row ∧
      m = row.intoModification storage := by
  unfold insertResult at h
  cases hone : answer.one with
  | error e =>
    rw [hone] at h
    cases h
  | ok row =>
    rw [hone] at h
    cases h
    obtain ⟨result, hanswer, hrow⟩ := Answer.one_eq_ok hone
    exact ⟨result, row, hanswer, hrow, rfl⟩

/-- An insert returns the row under the key that it was allotted. -/
theorem insert_answered {new : NewModification} {parameters : Nat} {result : Result ModificationRow}
    (h : Allowed accepts c v (ModificationQuery.insert new parameters).request (.ok result) w) {row : ModificationRow}
    (hrow : result.rows.head? = some row) :
    row = new.toRow row.id ∧ v.owner row.id = none ∧ w.owner row.id ≠ none := by
  obtain ⟨keys, hlength, hkeys, hrows⟩ := h.insert_spec
  obtain ⟨k, rfl⟩ := List.length_eq_one_iff.mp hlength
  rw [hrows] at hrow
  cases hrow
  exact ⟨rfl, hkeys k List.mem_cons_self⟩

theorem CallsInv.insert (h : CallsInv storage source v returned) {new : NewModification} {parameters : Nat}
    (hfits : new.Fits storage)
    (hallowed : Allowed accepts c v (ModificationQuery.insert new parameters).request answer w) :
    CallsInv storage (addSource source new v w) w
      (returned ++ [⟨c, .insert new, v, .inserted (insertResult storage answer)⟩]) := by
  have hsource : ∀ k new', source k = some new' → addSource source new v w k = some new' :=
    fun k new' => h.addSource_eq new
  have hinserted : ∀ m, insertResult storage answer = .ok m → v.owner m.id = none ∧
      addSource source new v w m.id = some new ∧ m = (new.toRow m.id).intoModification storage := by
    intro m hm
    obtain ⟨result, row, rfl, hrow, rfl⟩ := insertResult_eq_ok hm
    obtain ⟨heq, hold, hallotted⟩ := insert_answered hallowed hrow
    refine ⟨hold, if_pos ⟨hold, hallotted⟩, ?_⟩
    exact congrArg (fun row => row.intoModification storage) heq
  refine ⟨h.lives_insert hallowed, fun k new' hk => ?_, fun e he => ?_, ?_⟩
  · unfold addSource at hk
    split_ifs at hk with hnew
    · cases hk
      exact ⟨hnew.2, hfits, _, List.mem_append_right _ List.mem_cons_self, rfl⟩
    · obtain ⟨hallotted, hfits', e, he, hcall⟩ := h.called k new' hk
      exact ⟨fun hnone => hallotted (hallowed.keeps.eq_none hnone), hfits', e, List.mem_append_left _ he, hcall⟩
  · rcases List.mem_append.mp he with he | he
    · exact (h.answers e he).mono hsource
    · rw [List.mem_singleton.mp he]
      refine ⟨fun m hm => ?_, fun count ms hcall => by (cases hcall), fun m reference hcall => by (cases hcall),
        fun m reference hcall => by (cases hcall), fun m input hcall => by (cases hcall)⟩
      obtain ⟨-, hnew, hrow⟩ := hinserted m (ModificationResult.inserted.inj hm)
      exact ⟨new, rfl, hnew, hrow⟩
  · -- the ids of earlier inserts were allotted before
    rw [List.filterMap_append, List.nodup_append]
    refine ⟨h.ids, ?_, fun id hid id' hid' => ?_⟩
    · cases hone : insertResult storage answer with
      | error e => exact List.nodup_nil
      | ok m => exact List.nodup_singleton _
    · obtain ⟨e, he, hid⟩ := List.mem_filterMap.mp hid
      cases hone : insertResult storage answer with
      | error e =>
        rw [hone] at hid'
        cases hid'
      | ok m =>
        rw [hone] at hid'
        obtain rfl : id' = m.id := List.mem_singleton.mp hid'
        rintro rfl
        unfold insertedId at hid
        split at hid
        · next m' hresult =>
          obtain ⟨new', -, hnew', -⟩ := (h.answers e he).insert m' hresult
          rw [Option.some.inj hid] at hnew'
          exact (h.called m.id new' hnew').1 (hinserted m hone).1
        · cases hid

/-! ## Queries -/

theorem lastResult_eq_ok {ms : List (Modification Int)} (h : lastResult storage answer = .ok ms) :
    ∃ rows, answer.all = .ok rows ∧ ms = rows.map fun row => row.intoModification storage := by
  unfold lastResult at h
  cases hall : answer.all with
  | error e =>
    rw [hall] at h
    cases h
  | ok rows =>
    rw [hall] at h
    cases h
    exact ⟨rows, rfl, rfl⟩

/-- The last modifications of a moment. -/
theorem last_answered (h : CallsInv storage source v returned) {count : BitVec 64}
    (hallowed : Allowed accepts c v (ModificationQuery.last count).request answer w) :
    Answers storage source ⟨c, .last count, v, .modifications (lastResult storage answer)⟩ := by
  refine ⟨fun m hm => by (cases hm), fun count' ms hcall hresult => ?_, fun m reference hcall => by (cases hcall),
    fun m reference hcall => by (cases hcall), fun m input hcall => by (cases hcall)⟩
  cases hcall
  obtain ⟨rows, hall, rfl⟩ := lastResult_eq_ok (ModificationResult.modifications.inj hresult)
  obtain ⟨-, -, ⟨n, result, hsnapshot, hreads, rfl, -⟩ | ⟨error, rfl, -⟩⟩ := hallowed.select_spec
  · obtain ⟨result', heq, hfailure, rfl⟩ := Answer.all_eq_ok hall
    cases heq
    cases hreads with
    | interrupted => cases hfailure
    | @all _ _ _ keys found _ hfinds hlimit =>
      refine ⟨hlimit _ rfl, ⟨n, keys, found, hsnapshot, hfinds, rfl⟩, ?_, fun m hm => ?_⟩
      · have hne := List.pairwise_map.mp (ids_found h.lives hfinds)
        have hdesc : found.Pairwise fun a b => b.id < a.id := by
          refine (hfinds.sorted.and hne).imp fun {a b} hab => ?_
          obtain ⟨hle, hne⟩ := hab
          omega
        exact (hdesc.sublist (List.take_sublist _ _)).map _ fun a b hab => hab
      · obtain ⟨row, hrow, rfl⟩ := List.mem_map.mp hm
        obtain ⟨k, hk, -⟩ := hfinds.mem_rows.mp (List.mem_of_mem_take hrow)
        obtain ⟨rfl, new, hsource, hsame⟩ := found_row h.lives hk
        refine ⟨new, hsource, hsame.requestType, ?_⟩
        rw [← (h.called _ _ hsource).2.1.input_eq row.id]
        unfold StoredModification.intoModification
        rw [hsame.inputReference]
  · cases hall

theorem load_answered (h : CallsInv .inline source v returned) {id : Int} {reference : String}
    (hallowed : Allowed accepts c v (ModificationQuery.load id reference).request answer w) :
    loadResult id reference answer = .bail s!"Loading local input for modification {id}" ∨
      ∃ new bytes, source id = some new ∧ new.input = some (.inline reference bytes) ∧
        loadResult id reference answer = .ok (.inline reference bytes) := by
  unfold loadResult
  cases hone : answer.one with
  | error e => exact Or.inl rfl
  | ok row =>
    obtain ⟨result, rfl, hrow⟩ := Answer.one_eq_ok hone
    obtain ⟨-, -, ⟨n, result', -, hreads, heq, -⟩ | ⟨error, heq, -⟩⟩ := hallowed.select_spec
    · cases heq
      obtain ⟨k, hk, hselects⟩ := hreads.mem_rows (List.mem_of_head? hrow)
      rw [Bool.and_eq_true, decide_eq_true_eq, decide_eq_true_eq] at hselects
      obtain ⟨rfl, hreference⟩ := hselects
      obtain ⟨rfl, new, hsource, hsame⟩ := found_row h.lives hk
      rw [hsame.inputReference] at hreference
      obtain ⟨bytes, hinput, hrequest⟩ := (h.called _ _ hsource).2.1.inline_eq hreference
      refine Or.inr ⟨new, bytes, hsource, hinput, ?_⟩
      dsimp only
      rw [hsame.request, hrequest]
    · cases heq

end Steps

/-! ## Runs -/

section Runs

variable [DecidableEq C] {server : Server C ModificationRow} {accepts : ModificationRow → Bool}
  {storage : ModificationInputStorage} {source : Int → Option NewModification} {returned : List (ReturnedCall C)}
  {c : C} {choice : server.Choice} {s t : server.State}
  {result : ModificationResult}

/-- A call that makes one request whose rows are not read. -/
theorem CallsInv.execute (hserver : server.Documented accepts) (h : CallsInv storage source (server.view s) returned)
    {call : ModificationCall} (hlast : ∀ count, call ≠ .last count) (hload : ∀ m, call ≠ .load m)
    (query : ModificationQuery) (hinsert : ∀ new parameters, query ≠ .insert new parameters)
    (hcall : server.call c choice (do return .done (← Modifications.execute query)) s = some (result, t)) :
    CallsInv storage source (server.view t) (returned ++ [⟨c, call, server.view s, result⟩]) := by
  obtain ⟨answer, hallowed, hresult⟩ := hserver.call hcall
  cases hresult
  exact h.request query hinsert hallowed (Answers.of_done hlast hload) rfl

theorem CallsInv.call_insert (hserver : server.Documented accepts)
    (h : CallsInv storage source (server.view s) returned) {new : NewModification}
    (hcall : server.call c choice ((ModificationCall.insert new).run storage) s = some (result, t)) :
    ∃ source', CallsInv storage source' (server.view t)
      (returned ++ [⟨c, .insert new, server.view s, result⟩]) := by
  have hrefused : ∀ {text : String}, Answers storage source
      (⟨c, .insert new, server.view s, .inserted (.bail text)⟩ : ReturnedCall C) := fun {text} =>
    ⟨fun m hm => by (cases hm), fun count ms hcall => by (cases hcall), fun m reference hcall => by (cases hcall),
      fun m reference hcall => by (cases hcall), fun m input hcall => by (cases hcall)⟩
  have hinserts : ∀ {parameters : Nat}, new.Fits storage →
      server.call c choice (do return .inserted (insertResult storage (← ask (.insert new parameters)))) s =
        some (result, t) → ∃ source', CallsInv storage source' (server.view t)
          (returned ++ [⟨c, .insert new, server.view s, result⟩]) := by
    intro parameters hfits hinsert
    obtain ⟨answer, hallowed, hresult⟩ := hserver.call hinsert
    cases hresult
    exact ⟨_, h.insert hfits hallowed⟩
  obtain ⟨serialId, requestType, input⟩ := new
  cases storage with
  | s3 =>
    cases input with
    | none => exact hinserts trivial hcall
    | some input =>
      cases input with
      | s3 reference => exact hinserts trivial hcall
      | inline reference bytes =>
        cases hcall
        exact ⟨source, h.skip hrefused rfl⟩
  | inline =>
    cases input with
    | none =>
      cases hcall
      exact ⟨source, h.skip hrefused rfl⟩
    | some input =>
      cases input with
      | s3 reference =>
        cases hcall
        exact ⟨source, h.skip hrefused rfl⟩
      | inline reference bytes => exact hinserts trivial hcall

theorem CallsInv.call_load (hserver : server.Documented accepts)
    (h : CallsInv storage source (server.view s) returned) {m : Modification Int}
    (hcall : server.call c choice ((ModificationCall.load m).run storage) s = some (result, t)) :
    CallsInv storage source (server.view t) (returned ++ [⟨c, .load m, server.view s, result⟩]) := by
  obtain ⟨id, serialId, requestType, input, status, persisted, body⟩ := m
  have hbail : ∀ {text : String}, (∀ reference, storage = .s3 → input ≠ some (.s3 reference)) →
      (∀ reference, storage = .inline → input ≠ some (.inline reference)) → Answers storage source
        (⟨c, .load ⟨id, serialId, requestType, input, status, persisted, body⟩, server.view s, .input (.bail text)⟩ :
          ReturnedCall C) := by
    intro text hs3 hinline
    refine ⟨fun m hm => by (cases hm), fun count ms hcall => by (cases hcall), fun m' reference hcall hs hm => ?_,
      fun m' reference hcall hs hm => ?_, fun m input hcall hm => by (cases hm)⟩
    · cases hcall
      exact absurd hm (hs3 reference hs)
    · cases hcall
      exact absurd hm (hinline reference hs)
  cases storage with
  | s3 =>
    cases input with
    | none =>
      cases hcall
      exact h.skip (hbail (fun _ _ => nofun) fun _ => nofun) rfl
    | some input =>
      cases input with
      | inline reference =>
        cases hcall
        exact h.skip (hbail (fun _ _ => nofun) fun _ => nofun) rfl
      | s3 reference =>
        cases hcall
        refine h.skip ⟨fun m hm => by (cases hm), fun count ms hcall => by (cases hcall),
          fun m' reference' hcall _ hm => ?_, fun _ _ _ hs => by (cases hs), fun m' input hcall hresult => ?_⟩ rfl
        · cases hcall
          cases hm
          rfl
        · cases hcall
          cases hresult
          exact ⟨rfl, iff_of_true rfl ⟨reference, rfl⟩⟩
  | inline =>
    cases input with
    | none =>
      cases hcall
      exact h.skip (hbail (fun _ => nofun) fun _ _ => nofun) rfl
    | some input =>
      cases input with
      | s3 reference =>
        cases hcall
        exact h.skip (hbail (fun _ => nofun) fun _ _ => nofun) rfl
      | inline reference =>
        obtain ⟨answer, hallowed, hresult⟩ := hserver.call hcall
        cases hresult
        have hloaded := load_answered h hallowed
        refine h.request (.load id reference) (fun _ _ => nofun) hallowed ⟨fun m hm => by (cases hm),
          fun count ms hcall => by (cases hcall), fun _ _ _ hs => by (cases hs), fun m' reference' hcall _ hm => ?_,
          fun m' input hcall hresult => ?_⟩ rfl
        · cases hcall
          cases hm
          rcases hloaded with hfailed | ⟨new, bytes, hsource, hinput, hok⟩
          · exact Or.inl (congrArg _ hfailed)
          · exact Or.inr ⟨new, bytes, hsource, hinput, congrArg _ hok⟩
        · cases hcall
          have hresult := ModificationResult.input.inj hresult
          rcases hloaded with hfailed | ⟨new, bytes, hsource, hinput, hok⟩
          · rw [hfailed] at hresult
            cases hresult
          · rw [hok] at hresult
            cases hresult
            exact ⟨rfl, iff_of_false nofun nofun⟩

/-- One call of a client. -/
theorem CallsInv.call (hserver : server.Documented accepts) (h : CallsInv storage source (server.view s) returned)
    {call : ModificationCall} (hcall : server.call c choice (call.run storage) s = some (result, t)) :
    ∃ source', CallsInv storage source' (server.view t) (returned ++ [⟨c, call, server.view s, result⟩]) := by
  cases call with
  | begin => exact ⟨source, h.execute hserver (fun _ => nofun) (fun _ => nofun) .begin (fun _ _ => nofun) hcall⟩
  | commit => exact ⟨source, h.execute hserver (fun _ => nofun) (fun _ => nofun) .commit (fun _ _ => nofun) hcall⟩
  | rollback => exact ⟨source, h.execute hserver (fun _ => nofun) (fun _ => nofun) .rollback (fun _ _ => nofun) hcall⟩
  | clear => exact ⟨source, h.execute hserver (fun _ => nofun) (fun _ => nofun) .clear (fun _ _ => nofun) hcall⟩
  | insert new => exact h.call_insert hserver hcall
  | load m => exact ⟨source, h.call_load hserver hcall⟩
  | last count =>
    obtain ⟨answer, hallowed, hresult⟩ := hserver.call hcall
    cases hresult
    exact ⟨source, h.request (.last count) (fun _ _ => nofun) hallowed (last_answered h hallowed) rfl⟩
  | update modifications =>
    change server.call c choice (do return ModificationResult.done (← updateModifications modifications)) s = _ at hcall
    unfold updateModifications at hcall
    split_ifs at hcall
    · cases hcall
      exact ⟨source, h.skip (Answers.of_done (fun _ => nofun) fun _ => nofun) rfl⟩
    · exact ⟨source, h.execute hserver (fun _ => nofun) (fun _ => nofun) (.update _) (fun _ _ => nofun) hcall⟩
  | delete modifications =>
    change server.call c choice (do return ModificationResult.done (← deleteModifications modifications)) s = _ at hcall
    unfold deleteModifications at hcall
    split_ifs at hcall
    · cases hcall
      exact ⟨source, h.skip (Answers.of_done (fun _ => nofun) fun _ => nofun) rfl⟩
    · exact ⟨source, h.execute hserver (fun _ => nofun) (fun _ => nofun) (.delete _) (fun _ _ => nofun) hcall⟩

/-- What the database does without a request. -/
theorem CallsInv.internal (h : CallsInv storage source (server.view s) returned)
    (hstep : Internal (server.view s) (server.view t)) : CallsInv storage source (server.view t) returned := by
  refine ⟨h.lives.internal hstep, fun k new hk => ?_, h.answers, h.ids⟩
  obtain ⟨hallotted, hcalled⟩ := h.called k new hk
  exact ⟨fun hnone => hallotted (hstep.keeps.eq_none hnone), hcalled⟩

/-- What holds after every run. -/
theorem CallsInv.run (hserver : server.Documented accepts) (hs : server.view s = View.initial)
    {events : List (CallEvent server ModificationCall)}
    (hrun : Transition.run (server.stepCalls (ModificationCall.run storage)) (s, []) events = some (t, returned)) :
    ∃ source, CallsInv storage source (server.view t) returned := by
  refine Transition.run_invariant (I := fun x : server.State × List (ReturnedCall C) =>
    ∃ source, CallsInv storage source (server.view x.1) x.2) ?_ hrun ?_
  · rintro ⟨s, returned⟩ event ⟨t, returned'⟩ hstep ⟨source, h⟩
    cases event with
    | call client call choice =>
      obtain ⟨⟨result, t'⟩, hcall, heq⟩ := Option.map_eq_some_iff.mp hstep
      cases heq
      exact h.call hserver hcall
    | internal choice =>
      obtain ⟨t', hinternal, heq⟩ := Option.map_eq_some_iff.mp hstep
      cases heq
      exact ⟨source, h.internal (hserver.internal _ _ _ hinternal)⟩
  · refine ⟨fun _ => none, ?_, fun k new hk => by (cases hk), fun e he => (List.not_mem_nil he).elim,
      List.nodup_nil⟩
    rw [hs]
    exact Lives.initial fun k => IsLife.absent

end Runs

end AmpcCommon.Modifications
