import ShaderIR.Proofs.DeadBranch.Faults

/-!
# Asking a table for constants

A table is asked for `true`, for undefined values, and for the globals it has made so far; the
requests of all functions of a module come in any order.  What is taken out of the queue is not
forgotten: the table that would have kept everything in its queue (`Session.whole`) changes by
making constants only, so all that is known of growing tables holds of it.

* `serve_grows`, `serve_answers`, `serve_takeNewGlobals`: one request;
* `Served.step`, `served_run`, `taken_run_takeNewGlobals`: a sequence of requests;
* `Grows.boolType_first`: the type of a new `true` comes before it;
* `answers_agree_and_globals_are_fresh`: the answers, and the globals that were made for them.
-/

namespace ShaderIR.ConstantTable

variable {m : Module} {T T' : ConstantTable} {ids ids' : IdSupply} {x t : Id}

/-! ## 1. Sessions -/

/-- What is asked of a table. -/
inductive Request where
  /-- The constant `true`. -/
  | trueConstant
  /-- The undefined value of a type. -/
  | undef (type : Id)
  /-- The globals that were made since they were last taken. -/
  | takeNewGlobals
deriving DecidableEq, Repr

/-- A table in use. -/
structure Session where
  /-- The table as it is now. -/
  table : ConstantTable
  /-- The ids for new globals. -/
  ids : IdSupply
  /-- The globals that were taken, in the order they came. -/
  taken : List Instruction
  /-- The ids that were given, with what was asked for. -/
  answers : List (Request × Id)

namespace Session

/-- The table of a module before anything is asked of it. -/
def start (m : Module) : Session := ⟨.ofModule m, m.supply, [], []⟩

/-- Serves one request. -/
def serve (s : Session) (r : Request) : Except Fault Session :=
  match r with
  | .trueConstant => do
    let (x, table, ids) ← s.table.trueConstant s.ids
    .ok { s with table := table, ids := ids, answers := s.answers ++ [(r, x)] }
  | .undef type => do
    let (x, table, ids) ← s.table.undef type s.ids
    .ok { s with table := table, ids := ids, answers := s.answers ++ [(r, x)] }
  | .takeNewGlobals =>
    .ok { s with table := s.table.takeNewGlobals.2, taken := s.taken ++ s.table.takeNewGlobals.1 }

/-- Serves one request after the other. -/
def run (s : Session) (rs : List Request) : Except Fault Session := rs.foldlM serve s

/-- Everything that was made so far: what was taken, then what is still queued. -/
def made (s : Session) : List Instruction := s.taken ++ s.table.newGlobals

/-- The table as if nothing had ever been taken. -/
def whole (s : Session) : ConstantTable := { s.table with newGlobals := s.made }

end Session

/-! ## 2. One request -/

/-- Making the type of booleans does not look at the queue. -/
theorem boolType_behind (q : List Instruction) (h : T.boolType ids = .ok (x, T', ids')) :
    { T with newGlobals := q ++ T.newGlobals }.boolType ids =
      .ok (x, { T' with newGlobals := q ++ T'.newGlobals }, ids') := by
  obtain ⟨bools, ints, boolType?, true?, undefs, queue⟩ := T
  cases boolType? with
  | some b =>
    cases h
    rfl
  | none =>
    obtain ⟨⟨y, ids₁⟩, htake, h⟩ := bind_eq_ok.mp h
    cases h
    exact bind_eq_ok.mpr ⟨_, htake, by simp⟩

/-- Nor does making the constant `true`. -/
theorem trueConstant_behind (q : List Instruction) (h : T.trueConstant ids = .ok (x, T', ids')) :
    { T with newGlobals := q ++ T.newGlobals }.trueConstant ids =
      .ok (x, { T' with newGlobals := q ++ T'.newGlobals }, ids') := by
  obtain ⟨bools, ints, boolType?, true?, undefs, queue⟩ := T
  cases true? with
  | some y =>
    cases h
    rfl
  | none =>
    obtain ⟨⟨type, T₁, ids₁⟩, hbool, h⟩ := bind_eq_ok.mp h
    obtain ⟨⟨y, ids₂⟩, htake, h⟩ := bind_eq_ok.mp h
    cases h
    exact bind_eq_ok.mpr ⟨_, boolType_behind q hbool, bind_eq_ok.mpr ⟨_, htake, by simp⟩⟩

/-- Nor does making an undefined value. -/
theorem undef_behind (q : List Instruction) (h : T.undef t ids = .ok (x, T', ids')) :
    { T with newGlobals := q ++ T.newGlobals }.undef t ids =
      .ok (x, { T' with newGlobals := q ++ T'.newGlobals }, ids') := by
  unfold undef at h ⊢
  split at h
  · cases h
    simp only [*]
  · rename_i hnone
    obtain ⟨⟨y, ids₁⟩, htake, h⟩ := bind_eq_ok.mp h
    cases h
    simp only [hnone]
    exact bind_eq_ok.mpr ⟨_, htake, by simp⟩

/-- The table has an answer ready. -/
def Gives (T : ConstantTable) : Request → Id → Prop
  | .trueConstant, x => T.true? = some x
  | .undef t, x => T.undefs.get? t = some x
  | .takeNewGlobals, _ => False

/-- An answer that is ready is not replaced. -/
theorem Grows.gives {P : Id → Prop} (h : Grows P T ids T' ids') {r : Request} (hx : T.Gives r x) :
    T'.Gives r x := by
  cases r with
  | trueConstant => exact h.true?_mono hx
  | undef t => exact h.undefs_mono hx
  | takeNewGlobals => exact hx

namespace Session

variable {s s' : Session} {r : Request} {rs : List Request}

/-- **Taking the new globals empties the queue.**  Nothing is lost by it: all that was made has been
taken then, and the table is otherwise the same. -/
theorem serve_takeNewGlobals (h : s.serve .takeNewGlobals = .ok s') :
    s'.table.newGlobals = [] ∧ s'.taken = s.made ∧ s'.whole = s.whole ∧ s'.ids = s.ids := by
  cases h
  have hmade : s.taken ++ s.table.newGlobals ++ [] = s.made := List.append_nil _
  exact ⟨rfl, rfl, congrArg (fun q => { s.table with newGlobals := q }) hmade, rfl⟩

/-- **A request makes constants at most.** -/
theorem serve_grows (h : s.serve r = .ok s') :
    s.whole.Grows (fun _ => True) s.ids s'.whole s'.ids := by
  cases r with
  | trueConstant =>
    obtain ⟨⟨x, table, ids⟩, hx, h⟩ := bind_eq_ok.mp h
    cases h
    exact Grows.refl.trueConstant (trueConstant_behind s.taken hx)
  | undef type =>
    obtain ⟨⟨x, table, ids⟩, hx, h⟩ := bind_eq_ok.mp h
    cases h
    exact Grows.refl.undef trivial (undef_behind s.taken hx)
  | takeNewGlobals =>
    obtain ⟨-, -, hwhole, hids⟩ := serve_takeNewGlobals h
    rw [hwhole, hids]
    exact .refl

/-- A request gets one answer, which is ready from then on; taking globals gets none. -/
theorem serve_answers (h : s.serve r = .ok s') :
    (r = .takeNewGlobals ∧ s'.answers = s.answers) ∨
      ∃ x, r ≠ .takeNewGlobals ∧ s'.answers = s.answers ++ [(r, x)] ∧ s'.whole.Gives r x := by
  cases r with
  | trueConstant =>
    obtain ⟨⟨x, table, ids⟩, hx, h⟩ := bind_eq_ok.mp h
    cases h
    exact .inr ⟨x, by simp, rfl, show table.true? = some x from true?_trueConstant hx⟩
  | undef type =>
    obtain ⟨⟨x, table, ids⟩, hx, h⟩ := bind_eq_ok.mp h
    cases h
    exact .inr ⟨x, by simp, rfl, show table.undefs.get? type = some x from (undef_cases hx).1⟩
  | takeNewGlobals =>
    cases h
    exact .inl ⟨rfl, rfl⟩

/-! ## 3. A sequence of requests -/

/-- The state after some requests to the table of a module. -/
structure Served (m : Module) (rs : List Request) (s : Session) : Prop where
  grows : (ofModule m).Grows (fun _ => True) m.supply s.whole s.ids
  answered : s.answers.map Prod.fst = rs.filter (fun r => r ≠ .takeNewGlobals)
  gives : ∀ a ∈ s.answers, s.whole.Gives a.1 a.2

theorem served_start (m : Module) : Served m [] (start m) := by
  refine ⟨?_, rfl, by simp [start]⟩
  have hwhole : (start m).whole = ofModule m :=
    congrArg (fun q => { ofModule m with newGlobals := q })
      (show [] ++ (ofModule m).newGlobals = _ from List.nil_append _)
  rw [hwhole]
  exact .refl

/-- **One more request.** -/
theorem Served.step (hs : Served m rs s) (h : s.serve r = .ok s') : Served m (rs ++ [r]) s' := by
  have hgrows := serve_grows h
  have hold : ∀ a ∈ s.answers, s'.whole.Gives a.1 a.2 := fun a ha => hgrows.gives (hs.gives a ha)
  rcases serve_answers h with ⟨rfl, heq⟩ | ⟨x, hr, heq, hgives⟩
  · exact ⟨hs.grows.trans hgrows, by rw [heq, hs.answered]; simp, heq ▸ hold⟩
  · refine ⟨hs.grows.trans hgrows, ?_, fun a ha => ?_⟩
    · rw [heq, List.map_append, hs.answered, List.filter_append]
      simp [hr]
    · rw [heq] at ha
      rcases List.mem_append.mp ha with ha | ha
      · exact hold a ha
      · rw [List.mem_singleton.mp ha]
        exact hgives

theorem served_run (h : (start m).run rs = .ok s) : Served m rs s := by
  refine foldlM_induct_done (P := Served m) h (served_start m) ?_
  intro before r after s s' _ hs hstep
  exact hs.step hstep

/-- **After the last globals were taken, all that was ever made has been taken**, each global once
and in the order they were made. -/
theorem taken_run_takeNewGlobals (h : s.run (rs ++ [.takeNewGlobals]) = .ok s') :
    ∃ s₁, s.run rs = .ok s₁ ∧ s'.table.newGlobals = [] ∧ s'.taken = s₁.made ∧
      s'.made = s₁.made := by
  unfold run at h
  rw [List.foldlM_append] at h
  obtain ⟨s₁, hrun, h⟩ := bind_eq_ok.mp h
  obtain ⟨s₂, htake, h⟩ := bind_eq_ok.mp h
  cases h
  obtain ⟨hempty, htaken, hwhole, -⟩ := serve_takeNewGlobals htake
  exact ⟨s₁, hrun, hempty, htaken, congrArg ConstantTable.newGlobals hwhole⟩

/-- Requests are refused for want of ids only. -/
theorem lacksOnlyIds_run (m : Module) (rs : List Request) : LacksOnlyIds ((start m).run rs) := by
  have hstart : (start m).ids.bound ≠ 0 := (tracks_snapshot m.globals m.bound).positive
  refine LacksOnlyIds.foldlM (P := fun s => s.ids.bound ≠ 0) hstart ?_
    (fun s r s' _ hs h => (serve_grows h).bound_ne_zero hs)
  intro s r _ hs
  cases r with
  | trueConstant => exact (lacksOnlyIds_trueConstant hs).bind (fun _ _ => .ok _)
  | undef type => exact (lacksOnlyIds_undef hs type).bind (fun _ _ => .ok _)
  | takeNewGlobals => exact .ok _

end Session

/-! ## 4. What was made -/

/-- The type of every `true` in a list is a type of booleans that comes before it. -/
def TypedBefore (globals new : List Instruction) : Prop :=
  ∀ before i after, new = before ++ i :: after → i.opcode = .constantTrue →
    ∃ type, i.type? = some type ∧
      ∃ j ∈ globals ++ before, j.result? = some type ∧ j.opcode = .typeBool

theorem TypedBefore.concat {globals new : List Instruction} (h : TypedBefore globals new)
    {i : Instruction} (hi : i.opcode = .constantTrue → ∃ type, i.type? = some type ∧
      ∃ j ∈ globals ++ new, j.result? = some type ∧ j.opcode = .typeBool) :
    TypedBefore globals (new ++ [i]) := by
  intro before j after hsplit hj
  rcases List.eq_nil_or_concat after with rfl | ⟨after, last, rfl⟩
  · obtain ⟨rfl, hlast⟩ := List.append_inj' hsplit rfl
    obtain rfl := List.singleton_inj.mp hlast
    exact hi hj
  · refine h before j after ?_ hj
    rw [List.concat_eq_append, ← List.cons_append, ← List.append_assoc] at hsplit
    exact (List.append_inj' hsplit rfl).1

/-- **The type of a new `true` comes before it**, among the globals or among what was made. -/
theorem Grows.boolType_first {P : Id → Prop} {globals : List Instruction} {bound : UInt32}
    (h : Grows P T ids T' ids') (hT : T.Anchored ids globals bound)
    (hstart : TypedBefore globals T.newGlobals) : TypedBefore globals T'.newGlobals := by
  have hqueue : ∀ {T₁ T₂ : ConstantTable} {ids₁ ids₂ : IdSupply} {i : Instruction},
      T₁.Anchored ids₁ globals bound ∧ TypedBefore globals T₁.newGlobals →
      Queues T₁ ids₁ i T₂ ids₂ →
      (i.opcode = .constantTrue → ∃ type, i.type? = some type ∧
        ∃ j ∈ globals ++ T₁.newGlobals, j.result? = some type ∧ j.opcode = .typeBool) →
      T₂.Anchored ids₂ globals bound ∧ TypedBefore globals T₂.newGlobals := by
    intro T₁ T₂ ids₁ ids₂ i hQ hq hi
    refine ⟨⟨hq.tracks hQ.1.toTracks, hQ.1.nodup_globals, hQ.1.below⟩, ?_⟩
    obtain ⟨-, -, -, hnew, -⟩ := hq
    rw [hnew]
    exact hQ.2.concat hi
  refine (h.induct (Q := fun T ids => T.Anchored ids globals bound ∧
    TypedBefore globals T.newGlobals) ⟨hT, hstart⟩ ?_ ?_ ?_).2
  · exact fun _ _ _ _ _ hQ hq => hqueue hQ hq (fun ho => by cases ho)
  · intro _ _ _ _ type _ hQ htype hq
    exact hqueue hQ hq (fun _ => ⟨type, rfl, hQ.1.comesFrom.boolType type htype⟩)
  · exact fun _ _ _ _ _ _ hQ _ hq => hqueue hQ hq (fun ho => by cases ho)

/-- What the answers of a session and the globals it made have to do with each other and with the
module: one answer for `true` and one for each type, each defined as it should be, by the module or
by what was made; and what was made has the ids that were handed out, in their order. -/
structure Session.Consistent (m : Module) (s : Session) : Prop where
  one_true : ∀ x y, (.trueConstant, x) ∈ s.answers → (.trueConstant, y) ∈ s.answers → x = y
  one_undef : ∀ t u x y, (.undef t, x) ∈ s.answers → (.undef u, y) ∈ s.answers → (x = y ↔ t = u)
  true_defined : ∀ x, (.trueConstant, x) ∈ s.answers →
    ∃ i ∈ m.globals ++ s.made, i.result? = some x ∧ i.opcode = .constantTrue
  undef_defined : ∀ t x, (.undef t, x) ∈ s.answers →
    ∃ i ∈ m.globals ++ s.made, i.result? = some x ∧ i.opcode = .undef ∧ i.type? = some t
  nodup : (results (m.globals ++ s.made)).Nodup
  made : MadeFrom (max m.bound.toNat 1) s.made
  handed_out : s.ids.bound.toNat = max m.bound.toNat 1 + s.made.length
  typed : TypedBefore m.globals s.made

/-- **Whatever is asked of the table of a module, the answers agree and the new globals are
fresh.** -/
theorem answers_agree_and_globals_are_fresh (hnodup : (results m.globals).Nodup)
    (hbelow : ∀ x ∈ results m.globals, x.word < m.bound) (rs : List Request) :
    LacksOnlyIds ((Session.start m).run rs) ∧
      ∀ s, (Session.start m).run rs = .ok s →
        s.answers.map Prod.fst = rs.filter (fun r => r ≠ .takeNewGlobals) ∧ s.Consistent m := by
  refine ⟨Session.lacksOnlyIds_run m rs, fun s h => ?_⟩
  have hs := Session.served_run h
  have hstart : (ofModule m).Anchored m.supply m.globals m.bound :=
    ⟨tracks_snapshot m.globals m.bound, hnodup, hbelow⟩
  have hnone : (ofModule m).newGlobals = [] := newGlobals_snapshot m.globals
  have hend := hs.grows.anchored hstart
  have hfrom : s.whole.ComesFrom (m.globals ++ s.made) := hend.comesFrom
  have hresults : (results (m.globals ++ s.made)).Nodup := hend.results_nodup
  obtain ⟨new, hnew, hmade, hbound⟩ := hs.grows.hasQueued
  obtain rfl : s.made = new := by rw [hnone] at hnew; exact hnew
  rw [Module.toNat_bound_supply] at hmade hbound
  have htrue : ∀ x, (.trueConstant, x) ∈ s.answers → s.whole.true? = some x :=
    fun x hx => hs.gives _ hx
  have hundef : ∀ t x, (.undef t, x) ∈ s.answers → s.whole.undefs.get? t = some x :=
    fun t x hx => hs.gives _ hx
  refine ⟨hs.answered, ?_, ?_, ?_, ?_, hresults, hmade, hbound, ?_⟩
  · exact fun x y hx hy => Option.some.inj ((htrue x hx).symm.trans (htrue y hy))
  · intro t u x y hx hy
    have hx' := hundef t x hx
    have hy' := hundef u y hy
    constructor
    · rintro rfl
      -- both entries come from the one global that defines the id
      obtain ⟨i, hi, hir, -, hit⟩ := hfrom.undef t x hx'
      obtain ⟨j, hj, hjr, -, hju⟩ := hfrom.undef u x hy'
      obtain rfl := Function.eq_of_mem_of_nodup_results hresults hi hj hir hjr
      exact Option.some.inj (hit.symm.trans hju)
    · rintro rfl
      exact Option.some.inj (hx'.symm.trans hy')
  · exact fun x hx => hfrom.bool x true (hfrom.isTrue x (htrue x hx))
  · exact fun t x hx => hfrom.undef t x (hundef t x hx)
  · refine hs.grows.boolType_first hstart ?_
    rw [hnone]
    rintro (_ | _) i after hsplit <;> cases hsplit

/-- A module with two types of integers, an undefined value of the first and no booleans. -/
def twoIntegers : Module :=
  { Module.empty with
    globals := [⟨.typeInt, none, some ⟨1⟩, [.literal 32, .literal 0]⟩,
      ⟨.undef, some ⟨1⟩, some ⟨2⟩, []⟩, ⟨.typeInt, none, some ⟨3⟩, [.literal 32, .literal 1]⟩]
    bound := 5 }

/-- Requests that are answered by the module, by new globals, and by globals that were taken
already. -/
def interleaved : List Request :=
  [.undef ⟨1⟩, .trueConstant, .takeNewGlobals, .undef ⟨3⟩, .trueConstant, .takeNewGlobals,
    .undef ⟨3⟩]

theorem answers_agree_and_globals_are_fresh_interleaved :
    (results twoIntegers.globals).Nodup ∧
      (∀ x ∈ results twoIntegers.globals, x.word < twoIntegers.bound) ∧
      ∃ s, (Session.start twoIntegers).run interleaved = .ok s ∧
        s.answers.map (fun a => a.2.word) = [2, 6, 7, 6, 7] ∧
        s.made.map (fun i => i.opcode) = [.typeBool, .constantTrue, .undef] ∧
        s.Consistent twoIntegers := by
  have hnodup : (results twoIntegers.globals).Nodup := by decide
  have hbelow : ∀ x ∈ results twoIntegers.globals, x.word < twoIntegers.bound := by decide
  have hrun : ((Session.start twoIntegers).run interleaved).toOption.map
      (fun s => (s.answers.map (fun a => a.2.word), s.made.map (fun i => i.opcode))) =
        some ([2, 6, 7, 6, 7], [.typeBool, .constantTrue, .undef]) := by cbv
  obtain ⟨s, h, hout⟩ := toOption_map_eq_some.mp hrun
  obtain ⟨hanswers, hmade⟩ := Prod.mk.inj hout
  have hconsistent := (answers_agree_and_globals_are_fresh hnodup hbelow interleaved).2 s h
  exact ⟨hnodup, hbelow, s, h, hanswers, hmade, hconsistent.2⟩

end ShaderIR.ConstantTable
