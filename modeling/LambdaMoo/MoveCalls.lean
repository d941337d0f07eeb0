import LambdaMoo.Resumptions
import LambdaMoo.StoreInvariant

/-! `move` from its call to its end. The verbs that it calls run in between, and whatever they call
changes the table; it goes on where it was with the table as it then is. -/
namespace LambdaMoo

/-- `struct bf_move_data`. -/
structure MoveData where
  what : Objid
  where' : Objid

/-- What `do_move` comes back with: where to go on when the verb that it has called ends, or what
`move` returns. -/
inductive MovePackage
  | call (pc : Nat)
  | raise (e : Error)
  | noVar

def MovePackage.package : MovePackage → Package
  | .call _ => .call
  | .raise e => .raise e
  | .noVar => .noVar

/-- The results that a move comes back with when its object may have been moved. -/
def MovePackage.afterMove (p : MovePackage) : Prop :=
  p = .call 3 ∨ p = .call 4 ∨ p = .raise .eMaxrec ∨ p = .noVar

theorem MovePackage.afterMove.call {p : MovePackage} {pc : Nat} (h : p.afterMove) (hp : p = .call pc) :
    pc = 3 ∨ pc = 4 := by
  subst hp
  obtain h | h | h | h := h
  · exact .inl (MovePackage.call.inj h)
  · exact .inr (MovePackage.call.inj h)
  · cases h
  · cases h

theorem MovePackage.afterMove.raise {p : MovePackage} {e : Error} (h : p.afterMove) (hp : p = .raise e) :
    e = .eMaxrec := by
  subst hp
  obtain h | h | h | h := h
  · cases h
  · cases h
  · exact MovePackage.raise.inj h
  · cases h

namespace Db

variable {db db' : Db} {env : Env} {progr this : Objid} {data : MoveData} {p : MovePackage} {accepts : Bool}
  {value : Var} {next : Nat} {vname : Str} {e : Error} {o : Object}

def doMoveExited (env : Env) (db : Db) (data : MoveData) : Option (MovePackage × Db) := do
  match db.find data.what with
  | none => return (.noVar, db)
  | some o =>
  if !db.valid data.where' || o.location ≠ data.where' then return (.noVar, db)
  match ← db.callVerb env data.where' "enterfunc".toList with
  | (.eNone, db) => return (.call 4, db)
  | (.eMaxrec, db) => return (.raise .eMaxrec, db)
  | (_, db) => return (.noVar, db)

def doMoveDecided (env : Env) (db : Db) (progr : Objid) (data : MoveData) (accepts : Bool) :
    Option (MovePackage × Db) := do
  if !db.isWizard progr && !accepts then return (.raise .eNacc, db)
  match db.find data.what with
  | none => return (.noVar, db)
  | some o =>
  if (data.where' ≠ nothing && !db.valid data.where') || o.location = data.where' then return (.noVar, db)
  -- the hierarchy is not to be violated
  if data.what ∈ (← db.walkUp .place db.fuel data.where') then return (.raise .eRecmove, db)
  let db ← db.changeLocation data.what data.where'
  match ← db.callVerb env o.location "exitfunc".toList with
  | (.eNone, db) => return (.call 3, db)
  | (.eMaxrec, db) => return (.raise .eMaxrec, db)
  | (_, db) => db.doMoveExited env data

/-- `do_move(arglist, next, data, progr)`; none is also its panic on any other place. -/
def doMove (env : Env) (db : Db) (progr : Objid) (next : Nat) (data : MoveData) (arglist : Var) :
    Option (MovePackage × Db) :=
  match next with
  | 1 => do
      match db.find data.what with
      | none => return (.raise .eInvarg, db)
      | some o =>
      if !db.valid data.where' && data.where' ≠ nothing then return (.raise .eInvarg, db)
      if !db.controls progr o then return (.raise .ePerm, db)
      if data.where' = nothing then db.doMoveDecided env progr data true
      else
        match ← db.callVerb env data.where' "accept".toList with
        | (.eNone, db) => return (.call 2, db)
        | (.eVerbnf, db) => db.doMoveDecided env progr data false
        | (e, db) => return (.raise e, db)
  | 2 => db.doMoveDecided env progr data arglist.isTrue
  | 3 => db.doMoveExited env data
  | 4 => some (.noVar, db)
  | _ => none

/-! It is the `move` that the other calls are made of. -/

theorem doMoveExited_package :
    (db.doMoveExited env data).map (Prod.map MovePackage.package id) = db.moveExited env data.what data.where' := by
  unfold doMoveExited moveExited
  cases db.find data.what with
  | none => rfl
  | some o =>
      dsimp only
      split
      · rfl
      · cases hcall : db.callVerb env data.where' "enterfunc".toList with
        | none => rfl
        | some r =>
            obtain ⟨e, db₁⟩ := r
            cases e <;> rfl

theorem doMoveDecided_package : (db.doMoveDecided env progr data accepts).map (Prod.map MovePackage.package id) =
    db.moveAccepted env progr data.what data.where' accepts := by
  unfold doMoveDecided moveAccepted
  split
  · rfl
  · cases db.find data.what with
    | none => rfl
    | some o =>
        dsimp only
        split
        · rfl
        · cases db.walkUp .place db.fuel data.where' with
          | none => rfl
          | some l =>
              simp only [Option.bind_eq_bind, Option.bind_some]
              split
              · rfl
              · cases db.changeLocation data.what data.where' with
                | none => rfl
                | some db₁ =>
                    simp only [Option.bind_some]
                    cases db₁.callVerb env o.location "exitfunc".toList with
                    | none => rfl
                    | some r =>
                        obtain ⟨e, db₂⟩ := r
                        cases e <;> first | rfl | exact doMoveExited_package

theorem doMove_package : (db.doMove env progr 1 data value).map (Prod.map MovePackage.package id) =
    db.bfMove env progr data.what data.where' := by
  rw [doMove, bfMove]
  cases db.find data.what with
  | none => rfl
  | some o =>
      dsimp only
      split
      · rfl
      · split
        · rfl
        · split
          · exact doMoveDecided_package
          · cases db.callVerb env data.where' "accept".toList with
            | none => rfl
            | some r =>
                obtain ⟨e, db₁⟩ := r
                cases e <;> first | rfl | exact doMoveDecided_package

/-! What each part does to the table. -/

/-- Nothing is in the way of the move: both objects are there, it leads elsewhere, and not into the
object itself. -/
structure Movable (db : Db) (data : MoveData) : Prop where
  what : data.what ∈ db.dom
  place : data.where' = nothing ∨ data.where' ∈ db.dom
  elsewhere : db.upOf .place data.what ≠ data.where'
  outside : data.what ∉ db.chain .place data.where'

theorem doMoveExited_cases (hdo : db.doMoveExited env data = some (p, db')) :
    db' = { db with vcTable := db'.vcTable } ∧ (p = .call 4 ∨ p = .raise .eMaxrec ∨ p = .noVar) := by
  unfold doMoveExited at hdo
  split at hdo
  · obtain ⟨rfl, rfl⟩ := Prod.mk.inj (Option.some.inj hdo)
    exact ⟨rfl, .inr (.inr rfl)⟩
  split at hdo
  · obtain ⟨rfl, rfl⟩ := Prod.mk.inj (Option.some.inj hdo)
    exact ⟨rfl, .inr (.inr rfl)⟩
  obtain ⟨⟨e, db₁⟩, hcall, hdo⟩ := Option.bind_eq_some_iff.mp hdo
  have hrest := callVerb_rest hcall
  split at hdo
  · next heq =>
      cases heq
      obtain ⟨rfl, rfl⟩ := Prod.mk.inj (Option.some.inj hdo)
      exact ⟨hrest, .inl rfl⟩
  · next heq =>
      cases heq
      obtain ⟨rfl, rfl⟩ := Prod.mk.inj (Option.some.inj hdo)
      exact ⟨hrest, .inr (.inl rfl)⟩
  · next heq =>
      cases heq
      obtain ⟨rfl, rfl⟩ := Prod.mk.inj (Option.some.inj hdo)
      exact ⟨hrest, .inr (.inr rfl)⟩

theorem doMoveDecided_cases (hi : Intact db) (hdo : db.doMoveDecided env progr data accepts = some (p, db')) :
    db.isWizard progr = false ∧ accepts = false ∧ db' = db ∧ p = .raise .eNacc ∨
      (db.isWizard progr = true ∨ accepts = true) ∧
        (¬ Movable db data ∧ db' = db ∧ (p = .noVar ∨ p = .raise .eRecmove) ∨
          Movable db data ∧ db'.upOf .place = Function.update (db.upOf .place) data.what data.where' ∧
            p.afterMove) := by
  unfold doMoveDecided at hdo
  split at hdo
  · next hno =>
      obtain ⟨rfl, rfl⟩ := Prod.mk.inj (Option.some.inj hdo)
      simp only [Bool.and_eq_true, Bool.not_eq_true'] at hno
      exact .inl ⟨hno.1, hno.2, rfl, rfl⟩
  next hmay =>
  have hgranted : db.isWizard progr = true ∨ accepts = true := by
    cases hw : db.isWizard progr with
    | true => exact .inl rfl
    | false =>
        cases accepts with
        | true => exact .inr rfl
        | false => simp [hw] at hmay
  refine .inr ⟨hgranted, ?_⟩
  split at hdo
  · next hnone =>
      obtain ⟨rfl, rfl⟩ := Prod.mk.inj (Option.some.inj hdo)
      refine .inl ⟨fun h => ?_, rfl, .inl rfl⟩
      obtain ⟨o, ho⟩ := mem_dom.mp h.what
      rw [hi.sound.find_eq, ho] at hnone
      cases hnone
  next o ho =>
  rw [hi.sound.find_eq] at ho
  have hplace : db.upOf .place data.what = o.location := upOf_of ho
  split at hdo
  · next hno =>
      obtain ⟨rfl, rfl⟩ := Prod.mk.inj (Option.some.inj hdo)
      refine .inl ⟨fun h => ?_, rfl, .inl rfl⟩
      simp only [Bool.or_eq_true, Bool.and_eq_true, decide_eq_true_eq, Bool.not_eq_true'] at hno
      obtain ⟨hne, hinvalid⟩ | hsame := hno
      · have hvalid := hi.sound.valid_iff.mpr (h.place.resolve_left hne)
        rw [hvalid] at hinvalid
        cases hinvalid
      · exact h.elsewhere (hplace.trans hsame)
  next hvalid =>
  have hp : data.where' = nothing ∨ data.where' ∈ db.dom := by
    by_cases hn : data.where' = nothing
    · exact .inl hn
    · refine .inr (hi.sound.valid_iff.mp ?_)
      by_contra hno
      simp [hn, hno] at hvalid
  have helse : o.location ≠ data.where' := by
    intro heq
    simp [heq] at hvalid
  simp only [Option.bind_eq_bind, hi.sound.walkUp_fuel hp, Option.bind_some] at hdo
  split at hdo
  · next hmem =>
      obtain ⟨rfl, rfl⟩ := Prod.mk.inj (Option.some.inj hdo)
      exact .inl ⟨fun h => h.outside hmem, rfl, .inr rfl⟩
  next hmem =>
  refine .inr ⟨⟨mem_dom_of ho, hp, fun heq => helse (hplace.symm.trans heq), hmem⟩, ?_⟩
  obtain ⟨db₁, hchange, -, -, hup⟩ := changeLocation_spec hi ho hp hmem
  rw [hchange, Option.bind_some] at hdo
  obtain ⟨⟨e, db₂⟩, hcall, hdo⟩ := Option.bind_eq_some_iff.mp hdo
  have hrest := callVerb_rest hcall
  have hup₂ : db₂.upOf .place = db₁.upOf .place := by rw [hrest]; rfl
  split at hdo
  · next heq =>
      cases heq
      obtain ⟨rfl, rfl⟩ := Prod.mk.inj (Option.some.inj hdo)
      exact ⟨hup₂.trans hup, .inl rfl⟩
  · next heq =>
      cases heq
      obtain ⟨rfl, rfl⟩ := Prod.mk.inj (Option.some.inj hdo)
      exact ⟨hup₂.trans hup, .inr (.inr (.inl rfl))⟩
  · next heq =>
      cases heq
      obtain ⟨hrest', hp'⟩ := doMoveExited_cases hdo
      have hup₃ : db'.upOf .place = db₂.upOf .place := by rw [hrest']; rfl
      exact ⟨(hup₃.trans hup₂).trans hup, .inr hp'⟩

theorem Movable.withCache {table : Nat → List VcEntry} :
    Movable { db with vcTable := table } data ↔ Movable db data := by
  have hchain : ({ db with vcTable := table } : Db).chain .place = db.chain .place := chain_of_objects rfl rfl
  constructor
  · intro h
    exact ⟨h.what, h.place, h.elsewhere, hchain ▸ h.outside⟩
  · intro h
    exact ⟨h.what, h.place, h.elsewhere, hchain.symm ▸ h.outside⟩

theorem doMove_first (hi : Intact db) (hdo : db.doMove env progr 1 data value = some (p, db')) :
    db' = { db with vcTable := db'.vcTable } ∧
        (p = .call 2 ∧ data.where' ≠ nothing ∨ p = .noVar ∨ ∃ e, p = .raise e) ∨
      Movable db data ∧ db'.upOf .place = Function.update (db.upOf .place) data.what data.where' ∧ p.afterMove ∧
        (data.where' = nothing ∨ db.isWizard progr = true) := by
  rw [doMove] at hdo
  split at hdo
  · obtain ⟨rfl, rfl⟩ := Prod.mk.inj (Option.some.inj hdo)
    exact .inl ⟨rfl, .inr (.inr ⟨_, rfl⟩)⟩
  split at hdo
  · obtain ⟨rfl, rfl⟩ := Prod.mk.inj (Option.some.inj hdo)
    exact .inl ⟨rfl, .inr (.inr ⟨_, rfl⟩)⟩
  split at hdo
  · obtain ⟨rfl, rfl⟩ := Prod.mk.inj (Option.some.inj hdo)
    exact .inl ⟨rfl, .inr (.inr ⟨_, rfl⟩)⟩
  split at hdo
  · next hnothing =>
      obtain ⟨-, hno, -⟩ | ⟨-, ⟨-, rfl, rfl | rfl⟩ | ⟨hm, hup, hp⟩⟩ := doMoveDecided_cases hi hdo
      · cases hno
      · exact .inl ⟨rfl, .inr (.inl rfl)⟩
      · exact .inl ⟨rfl, .inr (.inr ⟨_, rfl⟩)⟩
      · exact .inr ⟨hm, hup, hp, .inl hnothing⟩
  next hsome =>
  obtain ⟨⟨e, db₁⟩, hcall, hdo⟩ := Option.bind_eq_some_iff.mp hdo
  have hrest := callVerb_rest hcall
  split at hdo
  · next heq =>
      cases heq
      obtain ⟨rfl, rfl⟩ := Prod.mk.inj (Option.some.inj hdo)
      exact .inl ⟨hrest, .inl ⟨rfl, hsome⟩⟩
  · next heq =>
      cases heq
      have hi₁ : Intact db₁ := by
        rw [hrest]
        exact hi.of_objects rfl rfl rfl
      obtain ⟨-, -, rfl, rfl⟩ | ⟨hgranted, ⟨-, rfl, rfl | rfl⟩ | ⟨hm, hup, hp⟩⟩ := doMoveDecided_cases hi₁ hdo
      · exact .inl ⟨hrest, .inr (.inr ⟨_, rfl⟩)⟩
      · exact .inl ⟨hrest, .inr (.inl rfl)⟩
      · exact .inl ⟨hrest, .inr (.inr ⟨_, rfl⟩)⟩
      · rw [hrest] at hm hup hgranted
        exact .inr ⟨Movable.withCache.mp hm, hup, hp, .inr (hgranted.resolve_right Bool.false_ne_true)⟩
  · next heq =>
      cases heq
      obtain ⟨rfl, rfl⟩ := Prod.mk.inj (Option.some.inj hdo)
      exact .inl ⟨hrest, .inr (.inr ⟨_, rfl⟩)⟩

theorem doMove_later (hnext : next = 3 ∨ next = 4) (hdo : db.doMove env progr next data value = some (p, db')) :
    db' = { db with vcTable := db'.vcTable } ∧ (p = .call 4 ∨ p = .raise .eMaxrec ∨ p = .noVar) := by
  obtain rfl | rfl := hnext
  · exact doMoveExited_cases hdo
  · obtain ⟨rfl, rfl⟩ := Prod.mk.inj (Option.some.inj hdo)
    exact ⟨rfl, .inr (.inr rfl)⟩

theorem Intact.doMove (hi : Intact db) (hdo : db.doMove env progr next data value = some (p, db')) : Intact db' := by
  have hmap : ∀ {f : Option (MovePackage × Db)} {g : Option (Package × Db)},
      f.map (Prod.map MovePackage.package id) = g → f = some (p, db') → g = some (p.package, db') := by
    rintro f g rfl rfl
    rfl
  match next with
  | 0 => cases hdo
  | 1 => exact (bfMove_tends (k := none) hi (hmap doMove_package hdo)).intact hi
  | 2 => exact (moveAccepted_tends (k := none) hi (hmap doMoveDecided_package hdo)).intact hi
  | 3 => exact (moveExited_tends (k := none) (hmap doMoveExited_package hdo)).intact hi
  | 4 =>
      obtain ⟨-, rfl⟩ := Prod.mk.inj (Option.some.inj hdo)
      exact hi
  | _ + 5 => cases hdo

end Db

/-! A whole call of `move`. -/

def Resumption.Unwinds {D : Type} (r : Resumption D) : Prop :=
  ∃ (W : Type) (callBiFunc : Invocation D → W → BiPackage D × W)
    (makeStackList : List (StackedActivation D) → Var) (fuel : Nat) (stack : List (StackedActivation D))
    (why : Reason) (value : Var) (w : W), r ∈ (unwindStack callBiFunc makeStackList fuel stack why value w).1

/-- One time that `do_move` is entered: by the call, or because a verb that it had called has ended. -/
structure MoveEntry where
  env : Env
  before : Db
  resumption : Option (Resumption MoveData)
  result : MovePackage
  after : Db

namespace MoveEntry

/-- The entry is one by programmer `progr`, with what `do_move` makes of the table. -/
def Made (progr : Objid) (data : MoveData) (e : MoveEntry) : Prop :=
  match e.resumption with
  | none => e.before.doMove e.env progr 1 data (.list [.obj data.what, .obj data.where']) = some (e.result, e.after)
  | some r => e.before.doMove e.env r.invocation.progr r.invocation.pc r.invocation.data r.invocation.value =
      some (e.result, e.after)

def Relocates (e : MoveEntry) : Prop := e.after.upOf .place ≠ e.before.upOf .place

def Accepted (e : MoveEntry) : Prop :=
  ∃ r, e.resumption = some r ∧ r.invocation.pc = 2 ∧ r.why = .return_ ∧ r.invocation.value.isTrue = true

/-- The verb `accept` has ended without returning, the programmer it ran with is a wizard, that of
the call is not, and nothing is in the way of the move. -/
def Slips (progr : Objid) (data : MoveData) (e : MoveEntry) : Prop :=
  ∃ r, e.resumption = some r ∧ r.invocation.pc = 2 ∧ r.why ≠ .return_ ∧
    e.before.isWizard r.ended.progr = true ∧ e.before.isWizard progr = false ∧ e.before.Movable data

end MoveEntry

/-- The entries of one call of `move`, the last one first, from a table that a run has led to. In
between a run of any calls has its way with the table. -/
inductive MoveCall (db₀ : Db) (progr : Objid) (data : MoveData) : List MoveEntry → Prop
  | first {e : MoveEntry} (hreached : Db.Run (fun _ _ _ => True) db₀ e.before) (hr : e.resumption = none)
      (hmade : e.Made progr data) : MoveCall db₀ progr data [e]
  | again {e e' : MoveEntry} {es : List MoveEntry} {id pc : Nat} {r : Resumption MoveData}
      (hcall : MoveCall db₀ progr data (e :: es)) (hpc : e.result = .call pc)
      (hverbs : Db.Run (fun _ _ _ => True) e.after e'.before) (hr : e'.resumption = some r)
      (hunwinds : r.Unwinds) (hended : r.ended.biFunc = some ⟨id, pc, data⟩)
      (hcaller : r.caller.progr = progr) (hmade : e'.Made progr data) :
      MoveCall db₀ progr data (e' :: e :: es)

def moveRefusals : List Error := [.eNacc, .eRecmove, .ePerm, .eInvarg]

/-- What is asked of a call of `move`: its object changes its place once at most, to the one asked
for, and only if it may; no object gets into itself; and a refusal comes of a call that has changed
no object. -/
structure SafeMove (progr : Objid) (data : MoveData) (es : List MoveEntry) : Prop where
  once : es.Pairwise fun e e' => ¬ (e.Relocates ∧ e'.Relocates)
  moves : ∀ e ∈ es, e.Relocates →
    e.after.upOf .place = Function.update (e.before.upOf .place) data.what data.where'
  allowed : ∀ e ∈ es, e.Relocates → data.where' = nothing ∨ e.Accepted ∨ e.before.isWizard progr = true
  acyclic : ∀ e ∈ es, ∀ x, ¬ Relation.TransGen (e.after.HangsUnder .place) x x
  refused : ∀ e ∈ es, ∀ err ∈ moveRefusals, e.result = .raise err →
    ∀ e' ∈ es, e'.after.objects = e'.before.objects

variable {db₀ : Db} {progr : Objid} {data : MoveData} {es : List MoveEntry} {e : MoveEntry}

namespace MoveEntry

def Stays (e : MoveEntry) : Prop := e.after = { e.before with vcTable := e.after.vcTable }

structure Moves (data : MoveData) (e : MoveEntry) : Prop where
  movable : e.before.Movable data
  up : e.after.upOf .place = Function.update (e.before.upOf .place) data.what data.where'
  result : e.result.afterMove

theorem Stays.not_relocates (h : e.Stays) : ¬ e.Relocates := by
  intro hne
  apply hne
  rw [h]
  rfl

theorem Moves.relocates (h : e.Moves data) : e.Relocates := by
  intro heq
  have hwhat := congrFun h.up data.what
  rw [heq, Function.update_self] at hwhat
  exact h.movable.elsewhere hwhat

/-- The entry that it is up to whether the object is moved. -/
structure Decides (progr : Objid) (data : MoveData) (e : MoveEntry) : Prop where
  outcome : e.Stays ∧ ¬ e.Slips progr data ∨
    e.Moves data ∧ (data.where' = nothing ∨ e.Accepted ∨ e.before.isWizard progr = true ∨ e.Slips progr data)
  place : e.Slips progr data → data.where' ≠ nothing

def Asks (e : MoveEntry) : Prop := e.Stays ∧ e.result = .call 2 ∧ e.resumption = none

def Follows (e : MoveEntry) : Prop :=
  e.Stays ∧ (e.result = .call 4 ∨ e.result = .raise .eMaxrec ∨ e.result = .noVar) ∧
    ∀ r, e.resumption = some r → r.invocation.pc ≠ 2

theorem Follows.afterMove (h : e.Follows) : e.result.afterMove := .inr h.2.1

end MoveEntry

/-- The entries: one in which it is decided, before it at most the one that has called `accept`, and
behind it those that call the other verbs. -/
structure MoveCourse (progr : Objid) (data : MoveData) (later : List MoveEntry) (d : MoveEntry)
    (early : List MoveEntry) : Prop where
  follow : ∀ e ∈ later, e.Follows
  decides : d.Decides progr data
  asked : ∀ e ∈ early, e.Asks
  next : ∀ pc, d.result = .call pc → pc = 3 ∨ pc = 4 ∨ pc = 2 ∧ early = [] ∧ data.where' ≠ nothing ∧ d.Asks

theorem MoveCall.intact (hi : db₀.Intact) (hcall : MoveCall db₀ progr data es) :
    ∀ e ∈ es, e.before.Intact ∧ e.after.Intact := by
  have hentry : ∀ e : MoveEntry, e.before.Intact → e.Made progr data → e.after.Intact := by
    intro e hb hmade
    unfold MoveEntry.Made at hmade
    split at hmade
    · exact hb.doMove hmade
    · exact hb.doMove hmade
  induction hcall with
  | @first e hreached _ hmade =>
      intro e' he
      obtain rfl := List.mem_singleton.mp he
      have hb := hreached.intact hi
      exact ⟨hb, hentry e' hb hmade⟩
  | @again e e' es id pc r _ _ hverbs _ _ _ _ hmade ih =>
      intro e'' he
      obtain rfl | he := List.mem_cons.mp he
      · have hb := hverbs.intact (ih e List.mem_cons_self).2
        exact ⟨hb, hentry e'' hb hmade⟩
      · exact ih e'' he

theorem first_decides (hb : e.before.Intact) (hr : e.resumption = none) (hmade : e.Made progr data) :
    MoveCourse progr data [] e [] := by
  have hno : ¬ e.Slips progr data := by
    rintro ⟨r, hsome, -⟩
    rw [hr] at hsome
    cases hsome
  unfold MoveEntry.Made at hmade
  rw [hr] at hmade
  refine ⟨fun e he => absurd he List.not_mem_nil, ⟨?_, fun h => absurd h hno⟩,
    fun e he => absurd he List.not_mem_nil, fun pc hpc => ?_⟩
  · obtain ⟨hstays, -⟩ | ⟨hm, hup, hp, hmay⟩ := Db.doMove_first hb hmade
    · exact .inl ⟨hstays, hno⟩
    · exact .inr ⟨⟨hm, hup, hp⟩, hmay.imp_right fun h => .inr (.inl h)⟩
  · obtain ⟨hstays, ⟨hp, hne⟩ | hp | ⟨err, hp⟩⟩ | ⟨-, -, hp, -⟩ := Db.doMove_first hb hmade
    · rw [hp] at hpc
      cases hpc
      exact .inr (.inr ⟨rfl, rfl, hne, hstays, hp, hr⟩)
    · rw [hp] at hpc
      cases hpc
    · rw [hp] at hpc
      cases hpc
    · exact (hp.call hpc).imp_right .inl

theorem resumed_with {id pc : Nat} {r : Resumption MoveData} (hunwinds : r.Unwinds)
    (hended : r.ended.biFunc = some ⟨id, pc, data⟩) (hcaller : r.caller.progr = progr) :
    r.invocation.pc = pc ∧ r.invocation.data = data ∧
      (r.why = .return_ ∧ r.invocation.progr = progr ∨
        r.why ≠ .return_ ∧ r.invocation.progr = r.ended.progr ∧ r.invocation.value = zero) := by
  obtain ⟨W, callBiFunc, makeStackList, fuel, stack, why, value, w, hmem⟩ := hunwinds
  obtain ⟨bi, hbi, -, hpc, hdata, hprogr⟩ := unwindStack_made r hmem
  rw [hended] at hbi
  obtain rfl := Option.some.inj hbi
  refine ⟨hpc, hdata, ?_⟩
  rwa [hcaller] at hprogr

theorem resumed_decides {id : Nat} {r : Resumption MoveData} (hb : e.before.Intact) (hr : e.resumption = some r)
    (hunwinds : r.Unwinds) (hended : r.ended.biFunc = some ⟨id, 2, data⟩) (hcaller : r.caller.progr = progr)
    (hplace : data.where' ≠ nothing) (hmade : e.Made progr data) :
    e.Decides progr data ∧ ∀ pc, e.result = .call pc → pc = 3 ∨ pc = 4 := by
  obtain ⟨hpc, hdata, hprogr⟩ := resumed_with hunwinds hended hcaller
  unfold MoveEntry.Made at hmade
  rw [hr] at hmade
  dsimp only at hmade
  rw [hpc, hdata] at hmade
  have hslips : e.Slips progr data → r.why ≠ .return_ ∧ e.before.isWizard r.ended.progr = true ∧
      e.before.Movable data := by
    rintro ⟨r', hr', -, hwhy, hwizard, -, hmovable⟩
    rw [hr] at hr'
    obtain rfl := Option.some.inj hr'
    exact ⟨hwhy, hwizard, hmovable⟩
  obtain ⟨hno, haccepts, hafter, hp⟩ | ⟨hgranted, ⟨hstuck, hafter, hp⟩ | ⟨hm, hup, hp⟩⟩ :=
    Db.doMoveDecided_cases hb hmade
  · refine ⟨⟨.inl ⟨by rw [MoveEntry.Stays, hafter], fun h => ?_⟩, fun _ => hplace⟩, fun pc h => ?_⟩
    · obtain ⟨hwhy, hwizard, -⟩ := hslips h
      obtain ⟨hreturn, -⟩ | ⟨-, hended', -⟩ := hprogr
      · exact hwhy hreturn
      · rw [hended', hwizard] at hno
        cases hno
    · rw [hp] at h
      cases h
  · refine ⟨⟨.inl ⟨by rw [MoveEntry.Stays, hafter], fun h => hstuck (hslips h).2.2⟩, fun _ => hplace⟩,
      fun pc h => ?_⟩
    obtain hp | hp := hp
    · rw [hp] at h
      cases h
    · rw [hp] at h
      cases h
  · refine ⟨⟨.inr ⟨⟨hm, hup, hp⟩, .inr ?_⟩, fun _ => hplace⟩, fun pc h => ?_⟩
    · obtain ⟨hreturn, hcaller'⟩ | ⟨hwhy, hended', hzero⟩ := hprogr
      · rw [hcaller'] at hgranted
        obtain hwizard | hvalue := hgranted
        · exact .inr (.inl hwizard)
        · exact .inl ⟨r, hr, hpc, hreturn, hvalue⟩
      · rw [hended', hzero] at hgranted
        have hwizard := hgranted.resolve_right Bool.false_ne_true
        by_cases hcallerWizard : e.before.isWizard progr = true
        · exact .inr (.inl hcallerWizard)
        · exact .inr (.inr ⟨r, hr, hpc, hwhy, hwizard, by simpa using hcallerWizard, hm⟩)
    · exact hp.call h

theorem resumed_follows {id pc : Nat} {r : Resumption MoveData} (hr : e.resumption = some r) (hunwinds : r.Unwinds)
    (hended : r.ended.biFunc = some ⟨id, pc, data⟩) (hcaller : r.caller.progr = progr) (hpc : pc = 3 ∨ pc = 4)
    (hmade : e.Made progr data) : e.Follows := by
  obtain ⟨hpc', -, -⟩ := resumed_with hunwinds hended hcaller
  unfold MoveEntry.Made at hmade
  rw [hr] at hmade
  dsimp only at hmade
  rw [hpc'] at hmade
  obtain ⟨hstays, hp⟩ := Db.doMove_later hpc hmade
  refine ⟨hstays, hp, fun r' hr' => ?_⟩
  rw [hr] at hr'
  obtain rfl := Option.some.inj hr'
  omega

theorem MoveCall.course (hi : db₀.Intact) (hcall : MoveCall db₀ progr data es) :
    ∃ later d early, es = later ++ d :: early ∧ MoveCourse progr data later d early := by
  have hintact := hcall.intact hi
  induction hcall with
  | @first e hreached hr hmade => exact ⟨[], e, [], rfl, first_decides (hreached.intact hi) hr hmade⟩
  | @again e e' es id pc r hcall hpc hverbs hr hunwinds hended hcaller hmade ih =>
      have hb := (hintact e' List.mem_cons_self).1
      obtain ⟨later, d, early, hsplit, hcourse⟩ := ih fun e he => hintact e (List.mem_cons_of_mem _ he)
      have hfollows : pc = 3 ∨ pc = 4 → ∃ later d early, e' :: e :: es = later ++ d :: early ∧
          MoveCourse progr data later d early := by
        intro hlate
        refine ⟨e' :: later, d, early, by rw [hsplit]; rfl, ⟨fun x hx => ?_, hcourse.decides, hcourse.asked,
          hcourse.next⟩⟩
        obtain rfl | hx := List.mem_cons.mp hx
        · exact resumed_follows hr hunwinds hended hcaller hlate hmade
        · exact hcourse.follow x hx
      cases later with
      | cons x later =>
          -- the verb was called after the decision
          obtain ⟨rfl, -⟩ := List.cons.inj hsplit
          exact hfollows ((hcourse.follow e List.mem_cons_self).afterMove.call hpc)
      | nil =>
          obtain ⟨rfl, rfl⟩ := List.cons.inj hsplit
          obtain hlate | hlate | ⟨rfl, rfl, hplace, hasks⟩ := hcourse.next pc hpc
          · exact hfollows (.inl hlate)
          · exact hfollows (.inr hlate)
          · obtain ⟨hdecides, hnext⟩ := resumed_decides hb hr hunwinds hended hcaller hplace hmade
            refine ⟨[], e', [e], rfl, ⟨fun x hx => absurd hx List.not_mem_nil, hdecides, fun x hx => ?_,
              fun pc h => ?_⟩⟩
            · obtain rfl := List.mem_singleton.mp hx
              exact hasks
            · obtain h | h := hnext pc h
              · exact .inl h
              · exact .inr (.inl h)

theorem MoveCourse.slips {later early : List MoveEntry} {d : MoveEntry} (h : MoveCourse progr data later d early)
    (he : e ∈ later ++ d :: early) (hslips : e.Slips progr data) : e = d := by
  obtain ⟨r, hr, hpc, -⟩ := hslips
  rw [List.mem_append, List.mem_cons] at he
  obtain he | rfl | he := he
  · exact absurd hpc ((h.follow e he).2.2 r hr)
  · rfl
  · have hnone := (h.asked e he).2.2
    rw [hr] at hnone
    cases hnone

theorem MoveCourse.stays {later early : List MoveEntry} {d : MoveEntry} (h : MoveCourse progr data later d early)
    (he : e ∈ later ++ d :: early) (hne : e ≠ d) : e.Stays := by
  rw [List.mem_append, List.mem_cons] at he
  obtain he | rfl | he := he
  · exact (h.follow e he).1
  · exact absurd rfl hne
  · exact (h.asked e he).1

theorem MoveCourse.once {later early : List MoveEntry} {d : MoveEntry} (h : MoveCourse progr data later d early) :
    (later ++ d :: early).Pairwise fun e e' => ¬ (e.Relocates ∧ e'.Relocates) := by
  have hlater : ∀ e ∈ later, ¬ e.Relocates := fun e he => (h.follow e he).1.not_relocates
  have hearly : ∀ e ∈ early, ¬ e.Relocates := fun e he => (h.asked e he).1.not_relocates
  rw [List.pairwise_append, List.pairwise_cons]
  refine ⟨?_, ⟨fun e he hboth => hearly e he hboth.2, ?_⟩, fun e he e' _ hboth => hlater e he hboth.1⟩
  · exact List.pairwise_of_forall_mem_list fun e he e' _ hboth => hlater e he hboth.1
  · exact List.pairwise_of_forall_mem_list fun e he e' _ hboth => hearly e he hboth.1

theorem MoveCourse.refused {later early : List MoveEntry} {d : MoveEntry} (h : MoveCourse progr data later d early)
    (he : e ∈ later ++ d :: early) {err : Error} (herr : err ∈ moveRefusals) (hp : e.result = .raise err) :
    d.Stays := by
  have hmaxrec : err ≠ .eMaxrec := by
    rintro rfl
    exact absurd herr (by decide)
  rw [List.mem_append, List.mem_cons] at he
  obtain he | rfl | he := he
  · exact absurd ((h.follow e he).afterMove.raise hp) hmaxrec
  · obtain ⟨hstays, -⟩ | ⟨⟨-, -, hq⟩, -⟩ := h.decides.outcome
    · exact hstays
    · exact absurd (hq.raise hp) hmaxrec
  · obtain ⟨-, hq, -⟩ := h.asked e he
    rw [hp] at hq
    cases hq

/-- A call of `move`, whatever happens to the table in between, is safe just if it is not gone on with
for a wizard whose `accept` has ended without returning. -/
theorem move_safe_iff (hi : db₀.Intact) (hcall : MoveCall db₀ progr data es) :
    SafeMove progr data es ↔ ∀ e ∈ es, ¬ e.Slips progr data := by
  have hintact := hcall.intact hi
  obtain ⟨later, d, early, rfl, hcourse⟩ := hcall.course hi
  constructor
  · intro hsafe e he hslips
    obtain rfl := hcourse.slips he hslips
    have hplace := hcourse.decides.place hslips
    obtain ⟨-, hno⟩ | ⟨hmoves, -⟩ := hcourse.decides.outcome
    · exact hno hslips
    · obtain ⟨r, hr, -, hwhy, -, hcaller, -⟩ := hslips
      obtain hnothing | ⟨r', hr', -, hreturn, -⟩ | hwizard := hsafe.allowed e he hmoves.relocates
      · exact hplace hnothing
      · rw [hr] at hr'
        obtain rfl := Option.some.inj hr'
        exact hwhy hreturn
      · rw [hcaller] at hwizard
        cases hwizard
  · intro hno
    have hrelocates : ∀ e ∈ later ++ d :: early, e.Relocates → e = d ∧ d.Moves data ∧
        (data.where' = nothing ∨ d.Accepted ∨ d.before.isWizard progr = true) := by
      intro e he hrel
      obtain rfl | hne := eq_or_ne e d
      · refine ⟨rfl, ?_⟩
        obtain ⟨hstays, -⟩ | ⟨hmoves, hmay⟩ := hcourse.decides.outcome
        · exact absurd hrel hstays.not_relocates
        · refine ⟨hmoves, ?_⟩
          obtain h | h | h | h := hmay
          · exact .inl h
          · exact .inr (.inl h)
          · exact .inr (.inr h)
          · exact absurd h (hno e he)
      · exact absurd hrel (hcourse.stays he hne).not_relocates
    refine ⟨hcourse.once, fun e he hrel => ?_, fun e he hrel => ?_, fun e he x => ?_,
      fun e he err herr hp e' he' => ?_⟩
    · obtain ⟨rfl, hmoves, -⟩ := hrelocates e he hrel
      exact hmoves.up
    · obtain ⟨rfl, -, hmay⟩ := hrelocates e he hrel
      exact hmay
    · exact (hintact e he).2.sound.wellLinked.acyclic .place x
    · have hstays : e'.Stays := by
        obtain rfl | hne := eq_or_ne e' d
        · exact hcourse.refused he herr hp
        · exact hcourse.stays he' hne
      rw [hstays]

def guard : Object :=
  { newObject 0 with owner := 0, flags := Function.update (fun _ => false) .wizard true, verbdefs := [
    { addr := 0, name := ['a', 'c', 'c', 'e', 'p', 't'], program := none, owner := 0
      flags := { exec := true, debug := true }, dobj := .this, prep := -1, iobj := .none }] }

def guardedPlace : Db :=
  (Db.empty.createObject.2.createObject.2.set 0 guard).set 1 { newObject 1 with owner := 1 }

theorem guardedPlace_intact : guardedPlace.Intact := by
  have hi := Db.createObject_intact (Db.createObject_intact Db.empty_intact)
  have hguard : (Db.empty.createObject.2.createObject.2.set 0 guard).Intact := by
    apply hi.of_agree
    apply Db.Agree.set (o := newObject 0) rfl
    refine Prod.ext (funext fun h => ?_) rfl
    cases h <;> rfl
  apply hguard.of_agree
  apply Db.Agree.set (o := newObject 1) rfl
  refine Prod.ext (funext fun h => ?_) rfl
  cases h <;> rfl

def toGuard : MoveData := ⟨1, 0⟩

def endedAccept (why : Reason) : Resumption MoveData where
  ended := { pc := 0, rts := [], env := fun _ => .none, debug := true, progr := 0, biFunc := some ⟨7, 2, toGuard⟩ }
  caller := { pc := 0, rts := [], env := fun _ => .none, debug := true, progr := 1, biFunc := none }
  why := why
  invocation := if why = .return_ then ⟨7, .int 1, 2, 1, toGuard⟩ else ⟨7, zero, 2, 0, toGuard⟩

theorem endedAccept_unwinds (why : Reason) (hwhy : why = .return_ ∨ why = .uncaught) : (endedAccept why).Unwinds := by
  refine ⟨Unit, fun _ w => (.ret zero, w), fun _ => zero, 1, [(endedAccept why).ended, (endedAccept why).caller],
    why, .int 1, (), ?_⟩
  obtain rfl | rfl := hwhy
  · exact List.mem_cons_self
  · exact List.mem_cons_self

def movedToGuard (why : Reason) : List MoveEntry :=
  let asked := ((guardedPlace.doMove Db.calmEnv 1 1 toGuard (.list [.obj 1, .obj 0])).map Prod.snd).getD .empty
  let inv := (endedAccept why).invocation
  let moved := ((asked.doMove Db.calmEnv inv.progr inv.pc inv.data inv.value).map Prod.snd).getD .empty
  [{ env := Db.calmEnv, before := asked, resumption := some (endedAccept why), result := .noVar, after := moved },
   { env := Db.calmEnv, before := guardedPlace, resumption := none, result := .call 2, after := asked }]

theorem movedToGuard_call (why : Reason) (hwhy : why = .return_ ∨ why = .uncaught) :
    MoveCall guardedPlace 1 toGuard (movedToGuard why) := by
  refine .again (.first .refl rfl rfl) rfl .refl rfl (endedAccept_unwinds why hwhy) rfl rfl ?_
  obtain rfl | rfl := hwhy
  · rfl
  · rfl

theorem movedToGuard_safe : (movedToGuard .return_).length = 2 ∧ SafeMove 1 toGuard (movedToGuard .return_) := by
  refine ⟨rfl, (move_safe_iff guardedPlace_intact (movedToGuard_call .return_ (.inl rfl))).mpr ?_⟩
  rintro e he ⟨r, hr, -, hwhy, -⟩
  simp only [movedToGuard, List.mem_cons, List.not_mem_nil, or_false] at he
  obtain rfl | rfl := he
  · exact hwhy (congrArg Resumption.why (Option.some.inj hr)).symm
  · cases hr

/-- The verb has ended with an error, and the object is moved, for no wizard. -/
theorem movedToGuard_not_safe : ¬ ∀ (db₀ : Db) (progr : Objid) (data : MoveData) (es : List MoveEntry),
    db₀.Intact → MoveCall db₀ progr data es → SafeMove progr data es := by
  intro h
  have hsafe := h _ _ _ _ guardedPlace_intact (movedToGuard_call .uncaught (.inr rfl))
  obtain hnothing | ⟨r, hr, -, hreturn, -⟩ | hwizard := hsafe.allowed _ List.mem_cons_self fun heq => by
    have hwhere := congrFun heq 1
    exact absurd hwhere (by decide)
  · exact absurd hnothing (by decide)
  · obtain rfl := Option.some.inj hr
    cases hreturn
  · exact absurd hwizard (by decide)

end LambdaMoo
