import WalG.Foundation.Stream
import WalG.Foundation.Text

/-! # Committed index builds

The loop over the fields of an index document has the name of the loop over the documents, so a
field goes to the specification of its own position, not to that of its document.
-/
namespace WalG.Mongo
open Foundation List Function

/-- The values of a document that are told apart by the code. -/
inductive BsonValue where
  | string (s : Text)
  | array (values : List BsonValue)
  | document (fields : List (Text × BsonValue))
  | other (data : Bytes)

abbrev BsonDoc := List (Text × BsonValue)

/-- A specification; a key or a map of options that was never made is absent. -/
structure IndexDocument where
  key : Option BsonDoc := none
  options : Option (Text → Option BsonValue) := none

inductive IndexError where
  | typeAssertion (etype key : Text) (value : BsonValue)
  | indexesNotFound
  | indexOutOfRange
  | assignmentToNilMap

def keyField : Text := "key".toList
def indexesField : Text := "indexes".toList
def commitIndexBuildField : Text := "commitIndexBuild".toList

/-- What the loops do to one specification. -/
inductive SpecEvent where
  | reset
  | write (field : Text × BsonValue)

def SpecEvent.run (spec : IndexDocument) : SpecEvent → Except IndexError IndexDocument
  | .reset => .ok { spec with options := some fun _ => none }
  | .write (name, value) =>
    if name = keyField then
      match value with
      | .document key => .ok { spec with key := some key }
      | _ => .error (.typeAssertion "bson.D".toList keyField value)
    else
      match spec.options with
      | none => .error .assignmentToNilMap
      | some options => .ok { spec with options := some (update options name (some value)) }

/-- One step of the loops over the `n` specifications, which are those at the positions below `n`. -/
def runAt (n : ℕ) (specs : ℕ → IndexDocument) (event : ℕ × SpecEvent) : Except IndexError (ℕ → IndexDocument) :=
  if event.1 < n then do
    let spec ← event.2.run (specs event.1)
    .ok (update specs event.1 spec)
  else .error .indexOutOfRange

/-- The events of one document: those of a field have the position of the field. -/
def documentEvents (k : ℕ) (fields : BsonDoc) : List (ℕ × SpecEvent) :=
  (k, .reset) :: fields.zipIdx.map fun (field, i) => (i, .write field)

/-- The loop over the documents; `value` is that of the field looked at last. -/
def indexSpecs (n : ℕ) :
    ℕ → BsonValue → List BsonValue → (ℕ → IndexDocument) → Except IndexError (ℕ → IndexDocument)
  | _, _, [], specs => .ok specs
  | k, value, .document fields :: rest, specs => do
    let specs ← (documentEvents k fields).foldlM (runAt n) specs
    indexSpecs n (k + 1) ((fields.getLast?.map Prod.snd).getD value) rest specs
  | k, value, _ :: _, _ => .error (.typeAssertion "bson.D".toList ("indexes[".toList ++ decimal k ++ [']']) value)

def collName : Text → BsonDoc → Except IndexError Text
  | name, [] => .ok name
  | name, (key, value) :: rest =>
    if key = commitIndexBuildField then
      match value with
      | .string s => collName s rest
      | _ => .error (.typeAssertion "string".toList commitIndexBuildField value)
    else collName name rest

def indexSpecFromCommitIndexBuilds (object : BsonDoc) : Except IndexError (Text × List IndexDocument) := do
  let name ← collName [] object
  match object.find? fun field => field.1 = indexesField with
  | none => .error .indexesNotFound
  | some (_, .array indexes) =>
    -- the reset of a specification comes before its document is looked at
    let specs ← indexSpecs indexes.length 0 (.array indexes) indexes fun _ => {}
    .ok (name, (range indexes.length).map specs)
  | some (_, value) => .error (.typeAssertion "bson.A".toList indexesField value)

/-- The fields other than the key are added; of those with one name the last counts. -/
def setOptions (options : Text → Option BsonValue) (fields : BsonDoc) : Text → Option BsonValue :=
  (fields.filter (·.1 ≠ keyField)).foldl (fun m f => update m f.1 (some f.2)) options

def optionsOf : BsonDoc → Text → Option BsonValue := setOptions fun _ => none

/-- The specification that a document stands for. -/
def specOf (key : BsonDoc) (fields : BsonDoc) : IndexDocument where
  key := some key
  options := some (optionsOf fields)

structure KeyedDoc where
  fields : BsonDoc
  key : BsonDoc
  one : fields.filter (·.1 = keyField) = [(keyField, .document key)]

/-- The key of the last document that has its key at a position. -/
def lastKeyAt (j : ℕ) (docs : List KeyedDoc) : Option BsonDoc :=
  (docs.reverse.find? fun doc => (doc.fields[j]?).any (·.1 = keyField)).map KeyedDoc.key

def fieldsAt (j : ℕ) (docs : List KeyedDoc) : BsonDoc := docs.filterMap (·.fields[j]?)

/-- No document has more fields than there are documents. For every position `j`, the documents before the `j`-th
have nothing but keys there, the last key there is that of the `j`-th document, and the other fields there from
that document on are its own ones. -/
structure Aligned (docs : List KeyedDoc) : Prop where
  short : ∀ doc ∈ docs, doc.fields.length ≤ docs.length
  early : ∀ j < docs.length, ∀ field ∈ fieldsAt j (docs.take j), field.1 = keyField
  keys : ∀ j (h : j < docs.length), lastKeyAt j docs = some docs[j].key
  options : ∀ j (h : j < docs.length), optionsOf (fieldsAt j (docs.drop j)) = optionsOf docs[j].fields

def allEvents (docs : List KeyedDoc) : List (ℕ × SpecEvent) :=
  docs.zipIdx.flatMap fun (doc, k) => documentEvents k doc.fields

/-- The events that reach one specification. -/
def eventsAt (j : ℕ) (events : List (ℕ × SpecEvent)) : List SpecEvent :=
  (events.filter (·.1 = j)).map Prod.snd

section Columns

variable {j : ℕ} {docs : List KeyedDoc}

@[simp] theorem eventsAt_nil : eventsAt j [] = [] := rfl

@[simp] theorem eventsAt_cons (e : ℕ × SpecEvent) (events : List (ℕ × SpecEvent)) :
    eventsAt j (e :: events) = if e.1 = j then e.2 :: eventsAt j events else eventsAt j events := by
  by_cases h : e.1 = j <;> simp [eventsAt, h]

theorem filter_zipIdx {α : Type} (l : List α) (n : ℕ) :
    ((l.zipIdx n).filter (·.2 = j)).map Prod.fst = if n ≤ j then l[j - n]?.toList else [] := by
  induction l generalizing n with
  | nil => simp
  | cons a l ih =>
    rw [zipIdx_cons, filter_cons]
    by_cases hn : n = j
    · subst hn
      simp [ih]
    · simp only [hn, decide_false, Bool.false_eq_true, if_false, ih]
      by_cases hle : n ≤ j
      · obtain ⟨i, rfl⟩ : ∃ i, j = n + 1 + i := ⟨j - (n + 1), by omega⟩
        simp [hle, show n + 1 + i - n = i + 1 by omega]
      · simp [hle, show ¬ n + 1 ≤ j by omega]

theorem eventsAt_documentEvents (k : ℕ) (fields : BsonDoc) :
    eventsAt j (documentEvents k fields) =
      (if k = j then [.reset] else []) ++ fields[j]?.toList.map .write := by
  have hfields := @filter_zipIdx j _ fields 0
  rw [if_pos (Nat.zero_le j), Nat.sub_zero] at hfields
  rw [← hfields, documentEvents, eventsAt_cons, eventsAt, filter_map]
  by_cases hk : k = j <;> simp [hk, comp_def]

@[simp] theorem fieldsAt_nil : fieldsAt j [] = [] := rfl

theorem fieldsAt_cons (doc : KeyedDoc) (docs : List KeyedDoc) :
    fieldsAt j (doc :: docs) = doc.fields[j]?.toList ++ fieldsAt j docs := by
  cases h : doc.fields[j]? <;> simp [fieldsAt, h]

/-- The fields at a position are written to the specification there, which is reset with its own document. -/
theorem eventsAt_zipIdx (docs : List KeyedDoc) (n : ℕ) :
    eventsAt j ((docs.zipIdx n).flatMap fun (doc, k) => documentEvents k doc.fields) =
      if n ≤ j ∧ j < n + docs.length then (fieldsAt j (docs.take (j - n))).map .write ++
        .reset :: (fieldsAt j (docs.drop (j - n))).map .write
      else (fieldsAt j docs).map .write := by
  induction docs generalizing n with
  | nil => simp [eventsAt]
  | cons doc docs ih =>
    have hsplit : eventsAt j (((doc :: docs).zipIdx n).flatMap fun (doc, k) => documentEvents k doc.fields) =
        eventsAt j (documentEvents n doc.fields) ++
          eventsAt j ((docs.zipIdx (n + 1)).flatMap fun (doc, k) => documentEvents k doc.fields) := by
      simp [eventsAt]
    rw [hsplit, ih, eventsAt_documentEvents]
    rcases lt_trichotomy n j with hlt | rfl | hgt
    · obtain ⟨i, rfl⟩ := Nat.exists_eq_add_of_lt hlt
      have hi : n + i + 1 - n = i + 1 := by omega
      have hi' : n + i + 1 - (n + 1) = i := by omega
      simp only [hi, hi', length_cons, take_succ_cons, drop_succ_cons, fieldsAt_cons, map_append]
      split_ifs <;> simp <;> omega
    · simp [fieldsAt_cons]
    · simp [fieldsAt_cons, hgt.ne', show ¬ n ≤ j by omega, show ¬ n + 1 ≤ j by omega]

theorem eventsAt_allEvents (h : j < docs.length) : eventsAt j (allEvents docs) =
    (fieldsAt j (docs.take j)).map .write ++ .reset :: (fieldsAt j (docs.drop j)).map .write := by
  rw [allEvents, eventsAt_zipIdx, if_pos ⟨Nat.zero_le j, by omega⟩, Nat.sub_zero]

theorem KeyedDoc.field_eq (doc : KeyedDoc) {field : Text × BsonValue} (hfield : doc.fields[j]? = some field)
    (hkey : field.1 = keyField) : field = (keyField, .document doc.key) := by
  have hmem : field ∈ doc.fields.filter (·.1 = keyField) :=
    mem_filter.mpr ⟨mem_of_getElem? hfield, decide_eq_true hkey⟩
  rwa [doc.one, mem_singleton] at hmem

theorem lastKeyAt_append (docs docs' : List KeyedDoc) :
    lastKeyAt j (docs ++ docs') = (lastKeyAt j docs').or (lastKeyAt j docs) := by
  simp only [lastKeyAt, reverse_append, find?_append, Option.map_or]

/-- The fields at a position set the last key there and, if the options were made, all others. -/
theorem foldlM_writes (key : Option BsonDoc) (options : Option (Text → Option BsonValue)) (docs : List KeyedDoc)
    (spec : IndexDocument) :
    ((fieldsAt j docs).map SpecEvent.write).foldlM SpecEvent.run ⟨key, options⟩ = .ok spec ↔
      (options = none → ∀ field ∈ fieldsAt j docs, field.1 = keyField) ∧
        spec = ⟨(lastKeyAt j docs).or key, options.map (setOptions · (fieldsAt j docs))⟩ := by
  induction docs generalizing key options with
  | nil => cases options <;> simp [lastKeyAt, setOptions, pure, Except.pure, eq_comm]
  | cons doc docs ih =>
    rw [fieldsAt_cons, ← singleton_append, lastKeyAt_append]
    cases hfield : doc.fields[j]? with
    | none => simp [ih, lastKeyAt, hfield]
    | some field =>
      rw [Option.toList_some, singleton_append, map_cons, foldlM_cons]
      by_cases hkey : field.1 = keyField
      · obtain rfl := doc.field_eq hfield hkey
        have hrun : SpecEvent.run ⟨key, options⟩ (.write (keyField, .document doc.key)) =
            .ok ⟨some doc.key, options⟩ := rfl
        rw [hrun, ok_bind, ih]
        simp [lastKeyAt, setOptions, hfield]
      · cases options with
        | none => simp [SpecEvent.run, hkey, bind, Except.bind]
        | some options =>
          have hrun : SpecEvent.run ⟨key, some options⟩ (.write field) =
              .ok ⟨key, some (update options field.1 (some field.2))⟩ := by
            simp [SpecEvent.run, hkey]
          rw [hrun, ok_bind, ih]
          simp [lastKeyAt, setOptions, hfield, hkey]

/-- What becomes of one specification. -/
theorem foldlM_eventsAt (h : j < docs.length) (spec : IndexDocument) :
    (eventsAt j (allEvents docs)).foldlM SpecEvent.run {} = .ok spec ↔
      (∀ field ∈ fieldsAt j (docs.take j), field.1 = keyField) ∧
        spec = ⟨lastKeyAt j docs, some (optionsOf (fieldsAt j (docs.drop j)))⟩ := by
  have hkey : lastKeyAt j docs = (lastKeyAt j (docs.drop j)).or (lastKeyAt j (docs.take j)) := by
    rw [← lastKeyAt_append, take_append_drop]
  rw [eventsAt_allEvents h, foldlM_append, hkey]
  constructor
  · intro hrun
    obtain ⟨before, hbefore, hafter⟩ := bind_ok hrun
    obtain ⟨hearly, rfl⟩ := (foldlM_writes none none (docs.take j) before).mp hbefore
    rw [Option.or_none] at hafter
    exact ⟨hearly rfl, ((foldlM_writes _ (some fun _ => none) (docs.drop j) spec).mp hafter).2⟩
  · rintro ⟨hearly, rfl⟩
    rw [(foldlM_writes none none (docs.take j) _).mpr ⟨fun _ => hearly, rfl⟩, ok_bind, Option.or_none]
    exact (foldlM_writes _ (some fun _ => none) (docs.drop j) _).mpr ⟨by simp, rfl⟩

end Columns

theorem mem_allEvents_lt {docs : List KeyedDoc} {n : ℕ} (hn : docs.length = n) :
    (∀ e ∈ allEvents docs, e.1 < n) ↔ ∀ doc ∈ docs, doc.fields.length ≤ n := by
  subst hn
  simp only [allEvents, documentEvents, mem_flatMap, Prod.exists, mem_zipIdx_iff_getElem?]
  constructor
  · intro h doc hdoc
    obtain ⟨k, hk⟩ := getElem?_of_mem hdoc
    by_contra hlt
    obtain ⟨field, hfield⟩ : ∃ field, doc.fields[docs.length]? = some field :=
      ⟨_, getElem?_eq_getElem (not_le.mp hlt)⟩
    refine lt_irrefl docs.length (h (docs.length, .write field) ⟨doc, k, hk, mem_cons_of_mem _ ?_⟩)
    exact mem_map.mpr ⟨(field, docs.length), mem_zipIdx_iff_getElem?.mpr hfield, rfl⟩
  · rintro h e ⟨doc, k, hk, he⟩
    rcases mem_cons.mp he with rfl | he
    · exact (List.getElem?_eq_some_iff.mp hk).1
    · obtain ⟨⟨field, i⟩, hi, rfl⟩ := mem_map.mp he
      have hlt := (List.getElem?_eq_some_iff.mp (List.mem_zipIdx_iff_getElem?.mp hi)).1
      exact hlt.trans_le (h doc (mem_of_getElem? hk))

/-- The loops work on each specification by itself. -/
theorem foldlM_runAt_iff (n : ℕ) (events : List (ℕ × SpecEvent)) (specs specs' : ℕ → IndexDocument) :
    events.foldlM (runAt n) specs = .ok specs' ↔ (∀ e ∈ events, e.1 < n) ∧
      ∀ j, (eventsAt j events).foldlM SpecEvent.run (specs j) = .ok (specs' j) := by
  induction events generalizing specs with
  | nil => simp [funext_iff, pure, Except.pure]
  | cons e events ih =>
    rw [foldlM_cons, runAt, forall_mem_cons]
    by_cases hlt : e.1 < n
    · cases hrun : e.2.run (specs e.1) with
      | error err =>
        refine iff_of_false (by simp [hlt, bind, Except.bind]) fun h => ?_
        simpa [hrun, bind, Except.bind] using h.2 e.1
      | ok spec =>
        simp only [hlt, if_true, true_and, bind, Except.bind]
        rw [ih]
        refine and_congr_right fun _ => forall_congr' fun j => ?_
        by_cases hj : e.1 = j
        · subst hj
          simp [hrun, bind, Except.bind]
        · simp [hj, Ne.symm hj]
    · simp [hlt, bind, Except.bind]

theorem indexSpecs_eq (n : ℕ) (value : BsonValue) (docs : List KeyedDoc) (k : ℕ) (specs : ℕ → IndexDocument) :
    indexSpecs n k value (docs.map fun doc => .document doc.fields) specs =
      ((docs.zipIdx k).flatMap fun (doc, k) => documentEvents k doc.fields).foldlM (runAt n) specs := by
  induction docs generalizing k value specs with
  | nil => rfl
  | cons doc docs ih => simp [indexSpecs, ih, foldlM_append]

theorem aligned_iff (docs : List KeyedDoc) : Aligned docs ↔ (∀ e ∈ allEvents docs, e.1 < docs.length) ∧
    ∀ j (h : j < docs.length),
      (eventsAt j (allEvents docs)).foldlM SpecEvent.run {} = .ok (specOf docs[j].key docs[j].fields) := by
  have hspec (j : ℕ) (h : j < docs.length) :
      (eventsAt j (allEvents docs)).foldlM SpecEvent.run {} = .ok (specOf docs[j].key docs[j].fields) ↔
        (∀ field ∈ fieldsAt j (docs.take j), field.1 = keyField) ∧ lastKeyAt j docs = some docs[j].key ∧
          optionsOf (fieldsAt j (docs.drop j)) = optionsOf docs[j].fields := by
    simp [foldlM_eventsAt h, specOf, eq_comm]
  rw [mem_allEvents_lt rfl]
  constructor
  · rintro ⟨hshort, hearly, hkeys, hoptions⟩
    exact ⟨hshort, fun j h => (hspec j h).mpr ⟨hearly j h, hkeys j h, hoptions j h⟩⟩
  · rintro ⟨hshort, hat⟩
    exact ⟨hshort, fun j h => ((hspec j h).mp (hat j h)).1, fun j h => ((hspec j h).mp (hat j h)).2.1,
      fun j h => ((hspec j h).mp (hat j h)).2.2⟩

/-- The documents are replayed if and only if they are aligned. -/
theorem indexSpecFromCommitIndexBuilds_iff (object : BsonDoc) (name : Text) (docs : List KeyedDoc)
    (hname : collName [] object = .ok name) (hindexes : (object.find? fun field => field.1 = indexesField) =
      some (indexesField, .array (docs.map fun doc => .document doc.fields))) :
    indexSpecFromCommitIndexBuilds object = .ok (name, docs.map fun doc => specOf doc.key doc.fields) ↔
      Aligned docs := by
  have hrun : indexSpecFromCommitIndexBuilds object =
      (allEvents docs).foldlM (runAt docs.length) (fun _ => {}) >>= fun specs =>
        .ok (name, (range docs.length).map specs) := by
    simp only [indexSpecFromCommitIndexBuilds, hname, hindexes, indexSpecs_eq, length_map]
    rfl
  have hmap : ∀ specs : ℕ → IndexDocument,
      (range docs.length).map specs = docs.map (fun doc => specOf doc.key doc.fields) ↔
        ∀ j (h : j < docs.length), specs j = specOf docs[j].key docs[j].fields := by
    intro specs
    simp [ext_getElem_iff]
  rw [hrun, aligned_iff]
  constructor
  · intro h
    obtain ⟨specs, hspecs, h⟩ := bind_ok h
    obtain ⟨hlt, hat⟩ := (foldlM_runAt_iff _ _ _ _).mp hspecs
    refine ⟨hlt, fun j hj => ?_⟩
    rw [hat j, (hmap specs).mp (Prod.mk.inj (Except.ok.inj h)).2 j hj]
  · rintro ⟨hlt, hat⟩
    have hspecs : (allEvents docs).foldlM (runAt docs.length) (fun _ => {}) =
        .ok fun j => if h : j < docs.length then specOf docs[j].key docs[j].fields else {} := by
      refine (foldlM_runAt_iff _ _ _ _).mpr ⟨hlt, fun j => ?_⟩
      by_cases hj : j < docs.length
      · simpa [hj] using hat j hj
      · have hnone : (allEvents docs).filter (·.1 = j) = [] := by
          rw [filter_eq_nil_iff]
          intro e he heq
          exact hj (of_decide_eq_true heq ▸ hlt e he)
        simp [eventsAt, hnone, hj, pure, Except.pure]
    rw [hspecs]
    exact congrArg (fun specs => Except.ok (name, specs)) ((hmap _).mpr fun j hj => by simp [hj])

/-- Two indexes over one field, with an option each before or after the key. -/
def crossedIndexes : List KeyedDoc :=
  [⟨[(['x'], .string ['u']), (keyField, .document [(['f'], .other [1])])], [(['f'], .other [1])], rfl⟩,
    ⟨[(keyField, .document [(['f'], .other [1])]), (['y'], .string ['v'])], [(['f'], .other [1])], rfl⟩]

theorem indexSpecFromCommitIndexBuilds_crossed :
    indexSpecFromCommitIndexBuilds [(commitIndexBuildField, .string ['c']),
        (indexesField, .array (crossedIndexes.map fun doc => .document doc.fields))] =
      .ok (['c'], crossedIndexes.map fun doc => specOf doc.key doc.fields) := by
  refine (indexSpecFromCommitIndexBuilds_iff _ _ crossedIndexes rfl rfl).mpr ⟨by decide, by decide, ?_, ?_⟩
  · rintro (_ | _ | j) h
    · rfl
    · rfl
    · exact absurd h (by simp [crossedIndexes])
  · rintro (_ | _ | j) h
    · rfl
    · rfl
    · exact absurd h (by simp [crossedIndexes])

/-- One index with a name besides its key. -/
def namedIndex : KeyedDoc := ⟨[(keyField, .document []), (['n'], .string ['x'])], [], rfl⟩

/-- The second field is written behind the only specification. -/
theorem indexSpecFromCommitIndexBuilds_panics : indexSpecFromCommitIndexBuilds
      [(commitIndexBuildField, .string ['c']), (indexesField, .array [.document namedIndex.fields])] =
      .error .indexOutOfRange := rfl

end WalG.Mongo
