import LambdaMoo.Inheritance

/-! Names that players use for the objects around them. -/
namespace LambdaMoo

def ambiguous : Objid := -2

def failedMatch : Objid := -3

def mystrncasecmp : Nat → Str → Str → Int
  | 0, _, _ => 0
  | _ + 1, [], [] => 0
  | _ + 1, [], t :: _ => -((asciiTolower t).toNat : Int)
  | _ + 1, s :: _, [] => (asciiTolower s).toNat
  | n + 1, s :: ss, t :: tt =>
      if asciiTolower s = asciiTolower t then mystrncasecmp n ss tt
      else (asciiTolower s).toNat - (asciiTolower t).toNat

structure MatchData where
  name : Str
  exact : Objid
  partial' : Objid

/-- A round of the loop of `match_proc` over the names of an object; none is its return of 1. -/
def MatchData.tryName (oid : Objid) (d : MatchData) (name : Str) : Option MatchData :=
  if mystrncasecmp d.name.length name d.name = 0 then
    if name.drop d.name.length = [] then
      if d.exact = nothing ∨ d.exact = oid then some { d with exact := oid } else none
    else if d.partial' = failedMatch ∨ d.partial' = oid then some { d with partial' := oid }
    else some { d with partial' := ambiguous }
  else some d

def matchAnswer : Option MatchData → Objid
  | none => ambiguous
  | some d => if d.exact ≠ nothing then d.exact else d.partial'

def stringsOf (values : List Var) : List Str :=
  values.filterMap fun v =>
    match v with
    | .str s => some s
    | _ => none

namespace Db

def aliases (db : Db) (oid : Objid) : Option (List Var) := do
  match ← db.findPropertyValue oid "aliases".toList with
  | some (_, .list names) => return names
  | _ => return []

def matchProc (db : Db) (oid : Objid) (d : MatchData) : Option (Option MatchData) := do
  let names ← db.aliases oid
  let name := (← db.objects oid).name
  return (name :: stringsOf names).foldlM (MatchData.tryName oid) d

def matchAll (db : Db) : List Objid → MatchData → Option (Option MatchData)
  | [], d => some (some d)
  | oid :: contents, d => do
      match ← db.matchProc oid d with
      | none => return none
      | some d => db.matchAll contents d

def matchPlaces (db : Db) : List Objid → MatchData → Option (Option MatchData)
  | [], d => some (some d)
  | oid :: places, d => do
      if !db.valid oid then db.matchPlaces places d
      else
        match ← db.matchAll (← db.membersOf .place oid) d with
        | none => return none
        | some d => db.matchPlaces places d

def matchContents (db : Db) (player : Objid) (name : Str) : Option Objid := do
  if !db.valid player then return failedMatch
  let loc := (← db.objects player).location
  return matchAnswer (← db.matchPlaces [player, loc] ⟨name, nothing, failedMatch⟩)

def matchObject (db : Db) (player : Objid) (name : Str) : Option Objid := do
  if name = [] then return nothing
  if name.head? = some '#' then
    let (r, p) := strtol name.tail
    return if p ≠ [] ∨ !db.valid r then failedMatch else r
  if !db.valid player then return failedMatch
  if sameName name "me".toList then return player
  if sameName name "here".toList then return (← db.objects player).location
  db.matchContents player name

/-- An object that the player or the place of the player holds. -/
def Near (db : Db) (player oid : Objid) : Prop :=
  oid ∈ db.dom ∧ (db.upOf .place oid = player ∨
    db.upOf .place player ∈ db.dom ∧ db.upOf .place oid = db.upOf .place player)

def namesOf (db : Db) (oid : Objid) : List Str :=
  (db.objects oid).elim [] fun o => o.name :: stringsOf ((db.aliases oid).getD [])

end Db

/-- A name is the one that is asked for. -/
def IsExact (name n : Str) : Prop := lowered n = lowered name

/-- A name goes on behind the one that is asked for. -/
def IsPartial (name n : Str) : Prop := lowered name <+: lowered n ∧ ¬ IsExact name n

def Sole (P : Objid → Prop) (oid : Objid) : Prop := P oid ∧ ∀ other, P other → other = oid

def Several (P : Objid → Prop) : Prop := ∃ oid other, P oid ∧ P other ∧ oid ≠ other

/-- What is answered when some objects match exactly and some in part. -/
structure Resolves (exact partial' : Objid → Prop) (r : Objid) : Prop where
  sole : ∀ oid, Sole exact oid → r = oid
  several : Several exact → r = ambiguous
  solePart : (∀ oid, ¬ exact oid) → ∀ oid, Sole partial' oid → r = oid
  severalParts : (∀ oid, ¬ exact oid) → Several partial' → r = ambiguous
  none : (∀ oid, ¬ exact oid) → (∀ oid, ¬ partial' oid) → r = failedMatch

variable {P Q : Objid → Prop} {name n : Str} {oid : Objid} {d d' : MatchData}

theorem sole_cases (P : Objid → Prop) : (∀ oid, ¬ P oid) ∨ (∃ oid, Sole P oid) ∨ Several P := by
  by_cases hnone : ∀ oid, ¬ P oid
  · exact .inl hnone
  · obtain ⟨oid, hoid⟩ := not_forall_not.mp hnone
    right
    by_cases hsole : ∀ other, P other → other = oid
    · exact .inl ⟨oid, hoid, hsole⟩
    · obtain ⟨other, hother⟩ := not_forall.mp hsole
      obtain ⟨hP, hne⟩ := Classical.not_imp.mp hother
      exact .inr ⟨other, oid, hP, hoid, hne⟩

theorem Resolves.unique {r r' : Objid} (h : Resolves P Q r) (h' : Resolves P Q r') : r = r' := by
  obtain hnone | ⟨oid, hsole⟩ | hseveral := sole_cases P
  · obtain hnoneQ | ⟨oid, hsole⟩ | hseveral := sole_cases Q
    · exact (h.none hnone hnoneQ).trans (h'.none hnone hnoneQ).symm
    · exact (h.solePart hnone oid hsole).trans (h'.solePart hnone oid hsole).symm
    · exact (h.severalParts hnone hseveral).trans (h'.severalParts hnone hseveral).symm
  · exact (h.sole oid hsole).trans (h'.sole oid hsole).symm
  · exact (h.several hseveral).trans (h'.several hseveral).symm

/-! Names. -/

theorem mystrncasecmp_eq_zero (ht : Terminated name) :
    mystrncasecmp name.length n name = 0 ↔ lowered name <+: lowered n := by
  induction name generalizing n with
  | nil =>
      constructor
      · intro _
        exact List.nil_prefix
      · intro _
        rfl
  | cons t tt ih =>
      unfold Terminated at ht
      rw [List.mem_cons, not_or] at ht
      have hzero : (asciiTolower t).toNat ≠ 0 := fun h => ht.1 (asciiTolower_eq_zero.mp h).symm
      unfold lowered
      cases n with
      | nil =>
          rw [List.length_cons, mystrncasecmp, List.map_nil, List.map_cons, List.prefix_nil]
          constructor
          · intro h
            omega
          · intro h
            cases h
      | cons c cs =>
          rw [List.length_cons, mystrncasecmp, List.map_cons, List.map_cons, List.cons_prefix_cons]
          split
          · next h =>
              rw [ih ht.2, h]
              unfold lowered
              rw [and_iff_right rfl]
          · next h =>
              constructor
              · intro hdiff
                apply absurd _ h
                apply Char.toNat_inj.mp
                omega
              · rintro ⟨heq, -⟩
                exact absurd heq.symm h

theorem drop_eq_nil_iff (h : lowered name <+: lowered n) : n.drop name.length = [] ↔ IsExact name n := by
  have hlength : ∀ s : Str, (lowered s).length = s.length := fun s => List.length_map _
  unfold IsExact
  rw [List.drop_eq_nil_iff]
  constructor
  · intro hle
    have := h.eq_of_length_le (by rw [hlength, hlength]; exact hle)
    exact this.symm
  · intro heq
    rw [← hlength n, heq, hlength]

/-! The candidates. -/

abbrev Naming := Objid × Str

def Among (seen : List Naming) (kind : Str → Prop) (oid : Objid) : Prop := ∃ n, (oid, n) ∈ seen ∧ kind n

/-- The candidates after some namings. -/
structure Keeps (seen : List Naming) (d : MatchData) : Prop where
  exact : if d.exact = nothing then ∀ oid, ¬ Among seen (IsExact d.name) oid
    else Sole (Among seen (IsExact d.name)) d.exact
  partial' : if d.partial' = failedMatch then ∀ oid, ¬ Among seen (IsPartial d.name) oid
    else if d.partial' = ambiguous then Several (Among seen (IsPartial d.name))
    else Sole (Among seen (IsPartial d.name)) d.partial'

theorem among_append {seen : List Naming} {kind : Str → Prop} {other : Objid} :
    Among (seen ++ [(oid, n)]) kind other ↔ Among seen kind other ∨ (other = oid ∧ kind n) := by
  unfold Among
  constructor
  · rintro ⟨m, hmem, hkind⟩
    rw [List.mem_append, List.mem_singleton, Prod.mk.injEq] at hmem
    obtain hmem | ⟨rfl, rfl⟩ := hmem
    · exact .inl ⟨m, hmem, hkind⟩
    · exact .inr ⟨rfl, hkind⟩
  · rintro (⟨m, hmem, hkind⟩ | ⟨rfl, hkind⟩)
    · exact ⟨m, List.mem_append_left _ hmem, hkind⟩
    · exact ⟨n, List.mem_append_right _ (List.mem_singleton.mpr rfl), hkind⟩

theorem sole_of_none {P' : Objid → Prop} (h : ∀ oid, ¬ P oid) (hadd : ∀ other, P' other ↔ P other ∨ other = oid) :
    Sole P' oid := by
  refine ⟨(hadd oid).mpr (.inr rfl), fun other hother => ?_⟩
  exact ((hadd other).mp hother).resolve_left (h other)

theorem Sole.again {P' : Objid → Prop} (h : Sole P oid) (hadd : ∀ other, P' other ↔ P other ∨ other = oid) :
    Sole P' oid := by
  refine ⟨(hadd oid).mpr (.inr rfl), fun other hother => ?_⟩
  exact ((hadd other).mp hother).elim (h.2 other) id

theorem Sole.several {P' : Objid → Prop} {c : Objid} (h : Sole P c) (hne : c ≠ oid)
    (hadd : ∀ other, P' other ↔ P other ∨ other = oid) : Several P' :=
  ⟨c, oid, (hadd c).mpr (.inl h.1), (hadd oid).mpr (.inr rfl), hne⟩

theorem Several.mono {P' : Objid → Prop} (h : Several P) (hmono : ∀ other, P other → P' other) : Several P' := by
  obtain ⟨a, b, ha, hb, hne⟩ := h
  exact ⟨a, b, hmono a ha, hmono b hb, hne⟩

variable {seen : List Naming}

theorem among_other {kind : Str → Prop} (h : ¬ kind n) : Among (seen ++ [(oid, n)]) kind = Among seen kind := by
  funext other
  apply propext
  rw [among_append]
  exact or_iff_left fun hand => h hand.2

theorem among_add {kind : Str → Prop} (h : kind n) (other : Objid) :
    Among (seen ++ [(oid, n)]) kind other ↔ Among seen kind other ∨ other = oid := by
  rw [among_append, and_iff_left h]

theorem Keeps.tryName (hk : Keeps seen d) (ht : Terminated d.name) (hoid : 0 ≤ oid) :
    match d.tryName oid n with
    | some d' => Keeps (seen ++ [(oid, n)]) d' ∧ d'.name = d.name
    | none => Several (Among (seen ++ [(oid, n)]) (IsExact d.name)) := by
  have hneg : ∀ c : Objid, c < 0 → oid ≠ c := by
    rintro c hc rfl
    exact absurd hoid (Int.not_le.mpr hc)
  have hnothing : oid ≠ nothing := hneg _ (by decide)
  have hfailed : oid ≠ failedMatch := hneg _ (by decide)
  have hambiguous : oid ≠ ambiguous := hneg _ (by decide)
  obtain ⟨hexact, hpart⟩ := hk
  unfold MatchData.tryName
  by_cases hpre : lowered d.name <+: lowered n
  · rw [if_pos ((mystrncasecmp_eq_zero ht).mpr hpre)]
    by_cases hex : IsExact d.name n
    · -- an exact match leaves the other candidate alone
      have hadd : ∀ other, Among (seen ++ [(oid, n)]) (IsExact d.name) other ↔
          Among seen (IsExact d.name) other ∨ other = oid := among_add hex
      have hsame : Among (seen ++ [(oid, n)]) (IsPartial d.name) = Among seen (IsPartial d.name) :=
        among_other fun h => h.2 hex
      rw [if_pos ((drop_eq_nil_iff hpre).mpr hex)]
      by_cases hcand : d.exact = nothing ∨ d.exact = oid
      · rw [if_pos hcand]
        refine ⟨⟨?_, ?_⟩, rfl⟩
        · dsimp only
          rw [if_neg hnothing]
          by_cases hnone : d.exact = nothing
          · rw [if_pos hnone] at hexact
            exact sole_of_none hexact hadd
          · rw [if_neg hnone, hcand.resolve_left hnone] at hexact
            exact hexact.again hadd
        · rw [hsame]
          exact hpart
      · rw [if_neg hcand]
        rw [not_or] at hcand
        rw [if_neg hcand.1] at hexact
        exact hexact.several hcand.2 hadd
    · have hbegins : IsPartial d.name n := ⟨hpre, hex⟩
      have hadd : ∀ other, Among (seen ++ [(oid, n)]) (IsPartial d.name) other ↔
          Among seen (IsPartial d.name) other ∨ other = oid := among_add hbegins
      have hsame : Among (seen ++ [(oid, n)]) (IsExact d.name) = Among seen (IsExact d.name) := among_other hex
      rw [if_neg (mt (drop_eq_nil_iff hpre).mp hex)]
      by_cases hcand : d.partial' = failedMatch ∨ d.partial' = oid
      · rw [if_pos hcand]
        refine ⟨⟨?_, ?_⟩, rfl⟩
        · rw [hsame]
          exact hexact
        · dsimp only
          rw [if_neg hfailed, if_neg hambiguous]
          by_cases hnone : d.partial' = failedMatch
          · rw [if_pos hnone] at hpart
            exact sole_of_none hpart hadd
          · have hsole := hcand.resolve_left hnone
            rw [hsole, if_neg hfailed, if_neg hambiguous] at hpart
            exact hpart.again hadd
      · rw [if_neg hcand]
        rw [not_or] at hcand
        refine ⟨⟨?_, ?_⟩, rfl⟩
        · rw [hsame]
          exact hexact
        · rw [if_neg hcand.1] at hpart
          change Several _
          split at hpart
          · exact hpart.mono fun other hother => (hadd other).mpr (.inl hother)
          · exact hpart.several hcand.2 hadd
  · rw [if_neg (mt (mystrncasecmp_eq_zero ht).mp hpre)]
    have hex : ¬ IsExact d.name n := by
      intro h
      apply hpre
      rw [h]
    refine ⟨⟨?_, ?_⟩, rfl⟩
    · rw [among_other hex]
      exact hexact
    · rw [among_other fun h => hpre h.1]
      exact hpart

/-- What comes of the loops over names: candidates for all that has been seen, or, when a second object
has matched exactly, none. -/
def Scanned (name : Str) (seen : List Naming) : Option MatchData → Prop
  | some d => Keeps seen d ∧ d.name = name
  | none => Several (Among seen (IsExact name))

theorem Scanned.mono_none {more : List Naming} (h : Scanned name seen none) : Scanned name (seen ++ more) none := by
  apply Several.mono h
  rintro other ⟨m, hmem, hkind⟩
  exact ⟨m, List.mem_append_left _ hmem, hkind⟩

theorem scanned_names {names : List Str} (ht : Terminated name) (hoid : 0 ≤ oid) (h : Scanned name seen (some d)) :
    Scanned name (seen ++ names.map fun n => (oid, n)) (names.foldlM (MatchData.tryName oid) d) := by
  induction names generalizing seen d with
  | nil =>
      rw [List.map_nil, List.append_nil]
      exact h
  | cons n names ih =>
      obtain ⟨hk, rfl⟩ := h
      have hstep := hk.tryName (n := n) ht hoid
      have hsplit : (seen ++ (n :: names).map fun n => (oid, n)) =
          (seen ++ [(oid, n)]) ++ names.map fun n => (oid, n) := by
        rw [List.map_cons, List.append_assoc]
        rfl
      rw [hsplit, List.foldlM_cons]
      cases htry : d.tryName oid n with
      | none =>
          rw [htry] at hstep
          exact Scanned.mono_none hstep
      | some d₁ =>
          rw [htry] at hstep
          exact ih hstep

theorem Sole.eq {other : Objid} (h : Sole P oid) (h' : Sole P other) : oid = other := h'.2 oid h.1

theorem Sole.not_several (h : Sole P oid) : ¬ Several P := by
  rintro ⟨a, b, ha, hb, hne⟩
  exact hne ((h.2 a ha).trans (h.2 b hb).symm)

theorem Scanned.resolves {r : Option MatchData} (h : Scanned name seen r) :
    Resolves (Among seen (IsExact name)) (Among seen (IsPartial name)) (matchAnswer r) := by
  cases r with
  | none =>
      have hsome : ∃ oid, Among seen (IsExact name) oid := by
        obtain ⟨a, b, ha, -⟩ := h
        exact ⟨a, ha⟩
      obtain ⟨oid, hoid⟩ := hsome
      exact ⟨fun _ hsole => absurd h hsole.not_several, fun _ => rfl, fun hnone => absurd hoid (hnone oid),
        fun hnone => absurd hoid (hnone oid), fun hnone => absurd hoid (hnone oid)⟩
  | some d =>
      obtain ⟨⟨hexact, hpart⟩, rfl⟩ := h
      unfold matchAnswer
      dsimp only
      by_cases hcand : d.exact = nothing
      · rw [if_pos hcand] at hexact
        rw [if_neg (not_not.mpr hcand)]
        refine ⟨fun oid hsole => absurd hsole.1 (hexact oid), ?_, fun _ oid hsole => ?_, fun _ hseveral => ?_,
          fun _ hnone => ?_⟩
        · rintro ⟨a, b, ha, -⟩
          exact absurd ha (hexact a)
        · split at hpart
          · exact absurd hsole.1 (hpart oid)
          · split at hpart
            · exact absurd hpart hsole.not_several
            · exact hpart.eq hsole
        · split at hpart
          · obtain ⟨a, b, ha, -⟩ := hseveral
            exact absurd ha (hpart a)
          · split at hpart
            · next hmany => exact hmany
            · exact absurd hseveral hpart.not_several
        · split at hpart
          · next hfailed => exact hfailed
          · split at hpart
            · obtain ⟨a, b, ha, -⟩ := hpart
              exact absurd ha (hnone a)
            · exact absurd hpart.1 (hnone _)
      · rw [if_neg hcand] at hexact
        rw [if_pos hcand]
        exact ⟨fun oid hsole => hexact.eq hsole, fun hseveral => absurd hseveral hexact.not_several,
          fun hnone => absurd hexact.1 (hnone _), fun hnone => absurd hexact.1 (hnone _),
          fun hnone => absurd hexact.1 (hnone _)⟩

namespace Db

variable {db : Db} {player : Objid} {o : Object}

theorem aliases_isSome (hi : Intact db) (ha : oid ∈ db.dom) : ∃ values, db.aliases oid = some values := by
  have hfind : ∃ found, db.findPropertyValue oid "aliases".toList = some found := by
    obtain ⟨e, he, hm, -⟩ | ⟨-, ⟨hfind, -⟩ | ⟨n, definer, v, source, -, -, hfind⟩⟩ := hi.finds ha "aliases".toList
    · have hno : ∀ e ∈ ptable, nameMatches e.1 "aliases".toList = false := by decide +kernel
      rw [hno e he] at hm
      cases hm
    · exact ⟨_, hfind⟩
    · exact ⟨_, hfind⟩
  obtain ⟨found, hfind⟩ := hfind
  unfold aliases
  rw [hfind, Option.bind_eq_bind, Option.bind_some]
  split
  · exact ⟨_, rfl⟩
  · exact ⟨_, rfl⟩

theorem scanned_matchProc (hi : Intact db) (ha : oid ∈ db.dom) (ht : Terminated name)
    (h : Scanned name seen (some d)) :
    ∃ r, db.matchProc oid d = some r ∧ Scanned name (seen ++ (db.namesOf oid).map fun n => (oid, n)) r := by
  obtain ⟨o, ho⟩ := mem_dom.mp ha
  obtain ⟨values, hvalues⟩ := aliases_isSome hi ha
  have hnames : db.namesOf oid = o.name :: stringsOf values := by
    unfold namesOf
    rw [ho, hvalues]
    rfl
  refine ⟨(db.namesOf oid).foldlM (MatchData.tryName oid) d, ?_, scanned_names ht (hi.sound.range ha).1 h⟩
  unfold matchProc
  rw [hvalues, ho, hnames]
  rfl

theorem scanned_matchAll (hi : Intact db) (ht : Terminated name) {contents : List Objid}
    (hdom : ∀ oid ∈ contents, oid ∈ db.dom) (h : Scanned name seen (some d)) :
    ∃ r, db.matchAll contents d = some r ∧
      Scanned name (seen ++ contents.flatMap fun oid => (db.namesOf oid).map fun n => (oid, n)) r := by
  induction contents generalizing seen d with
  | nil =>
      refine ⟨some d, rfl, ?_⟩
      rw [List.flatMap_nil, List.append_nil]
      exact h
  | cons oid contents ih =>
      obtain ⟨ha, hdom⟩ := List.forall_mem_cons.mp hdom
      obtain ⟨r, hr, hscanned⟩ := scanned_matchProc hi ha ht h
      rw [List.flatMap_cons, ← List.append_assoc, matchAll, hr, Option.bind_eq_bind, Option.bind_some]
      cases r with
      | none => exact ⟨none, rfl, hscanned.mono_none⟩
      | some d₁ => exact ih hdom hscanned

def namingsAt (db : Db) (place : Objid) : List Naming :=
  if db.valid place then
    ((db.membersOf .place place).getD []).flatMap fun oid => (db.namesOf oid).map fun n => (oid, n)
  else []

theorem mem_namingsAt (hi : Intact db) {place : Objid} : (oid, n) ∈ db.namingsAt place ↔
    n ∈ db.namesOf oid ∧ oid ∈ db.dom ∧ place ∈ db.dom ∧ db.upOf .place oid = place := by
  unfold namingsAt
  by_cases hplace : place ∈ db.dom
  · obtain ⟨o, ho⟩ := mem_dom.mp hplace
    obtain ⟨contents, hcontents, -, hin⟩ := hi.sound.membersOf_eq (h := .place) ho
    rw [if_pos (hi.sound.valid_iff.mpr hplace), hcontents, Option.getD_some, List.mem_flatMap, and_iff_right hplace,
      ← hin]
    constructor
    · rintro ⟨other, hother, hmem⟩
      obtain ⟨m, hm, heq⟩ := List.mem_map.mp hmem
      cases heq
      exact ⟨hm, hother⟩
    · rintro ⟨hn, hoid⟩
      exact ⟨oid, hoid, List.mem_map.mpr ⟨n, hn, rfl⟩⟩
  · rw [if_neg (mt hi.sound.valid_iff.mp hplace)]
    constructor
    · intro h
      cases h
    · rintro ⟨-, -, h, -⟩
      exact absurd h hplace

theorem scanned_matchPlaces (places : List Objid) (hi : Intact db) (ht : Terminated name)
    (h : Scanned name seen (some d)) :
    ∃ r, db.matchPlaces places d = some r ∧ Scanned name (seen ++ places.flatMap db.namingsAt) r := by
  induction places generalizing seen d with
  | nil =>
      refine ⟨some d, rfl, ?_⟩
      rw [List.flatMap_nil, List.append_nil]
      exact h
  | cons place places ih =>
      rw [matchPlaces, List.flatMap_cons]
      by_cases hplace : place ∈ db.dom
      · have hvalid := hi.sound.valid_iff.mpr hplace
        obtain ⟨o, ho⟩ := mem_dom.mp hplace
        obtain ⟨contents, hcontents, -, hin⟩ := hi.sound.membersOf_eq (h := .place) ho
        obtain ⟨r, hr, hscanned⟩ := scanned_matchAll hi ht (fun oid hoid => ((hin oid).mp hoid).1) h
        have hat : db.namingsAt place = contents.flatMap fun oid => (db.namesOf oid).map fun n => (oid, n) := by
          unfold namingsAt
          rw [if_pos hvalid, hcontents]
          rfl
        rw [hvalid, if_neg (by decide), hcontents, hat, ← List.append_assoc]
        dsimp only [Option.bind_eq_bind, Option.bind_some]
        rw [hr]
        cases r with
        | none => exact ⟨none, rfl, hscanned.mono_none⟩
        | some d₁ => exact ih hscanned
      · have hinvalid : db.valid place = false := by
          rw [← Bool.not_eq_true]
          exact mt hi.sound.valid_iff.mp hplace
        have hat : db.namingsAt place = [] := by
          unfold namingsAt
          rw [hinvalid]
          rfl
        rw [hinvalid, hat]
        exact ih h

theorem among_namings (hi : Intact db) (hplayer : player ∈ db.dom) (kind : Str → Prop) :
    Among ([player, db.upOf .place player].flatMap db.namingsAt) kind =
      fun oid => db.Near player oid ∧ ∃ n ∈ db.namesOf oid, kind n := by
  funext oid
  apply propext
  have hmem : ∀ n, (oid, n) ∈ [player, db.upOf .place player].flatMap db.namingsAt ↔
      n ∈ db.namesOf oid ∧ db.Near player oid := by
    intro n
    unfold Near
    rw [List.flatMap_cons, List.flatMap_cons, List.flatMap_nil, List.append_nil, List.mem_append, mem_namingsAt hi,
      mem_namingsAt hi, and_iff_right hplayer, ← and_or_left, ← and_or_left]
  unfold Among
  constructor
  · rintro ⟨n, hn, hkind⟩
    obtain ⟨hname, hnear⟩ := (hmem n).mp hn
    exact ⟨hnear, n, hname, hkind⟩
  · rintro ⟨hnear, n, hname, hkind⟩
    exact ⟨n, (hmem n).mpr ⟨hname, hnear⟩, hkind⟩

theorem matchContents_resolves (hi : Intact db) (hplayer : player ∈ db.dom) (ht : Terminated name) :
    ∃ r, db.matchContents player name = some r ∧
      Resolves (fun oid => db.Near player oid ∧ ∃ n ∈ db.namesOf oid, IsExact name n)
        (fun oid => db.Near player oid ∧ ∃ n ∈ db.namesOf oid, IsPartial name n) r := by
  obtain ⟨o, ho⟩ := mem_dom.mp hplayer
  have hstart : Scanned name [] (some ⟨name, nothing, failedMatch⟩) := by
    refine ⟨⟨?_, ?_⟩, rfl⟩
    · rintro oid ⟨n, hmem, -⟩
      cases hmem
    · rintro oid ⟨n, hmem, -⟩
      cases hmem
  have hloc : db.upOf .place player = o.location := upOf_of ho
  obtain ⟨r, hr, hscanned⟩ := scanned_matchPlaces [player, o.location] hi ht hstart
  have hresolves := hscanned.resolves
  rw [List.nil_append, ← hloc, among_namings hi hplayer, among_namings hi hplayer] at hresolves
  refine ⟨_, ?_, hresolves⟩
  unfold matchContents
  rw [hi.sound.valid_iff.mpr hplayer, ho]
  dsimp only [Option.bind_eq_bind, Option.bind_some]
  rw [if_neg (by decide), hr]
  rfl

theorem matchObject_eq (hi : Intact db) (hplayer : player ∈ db.dom) (hne : name ≠ []) (hhash : name.head? ≠ some '#')
    (hme : sameName name "me".toList = false) (hhere : sameName name "here".toList = false) :
    db.matchObject player name = db.matchContents player name := by
  unfold matchObject
  rw [if_neg hne, if_neg hhash, hi.sound.valid_iff.mpr hplayer, if_neg (by decide), hme, hhere]
  rfl

/-- For every player and every name that has no meaning of its own, the answer is the one object near
the player that has the name, or the one with a name that begins with it; it is the same in every store
in which the same objects, under the same names, are near the player. -/
theorem matchObject_resolves (db : Db) (player : Objid) (name : Str) (hi : Intact db) (hplayer : player ∈ db.dom)
    (ht : Terminated name) (hne : name ≠ []) (hhash : name.head? ≠ some '#')
    (hme : sameName name "me".toList = false) (hhere : sameName name "here".toList = false) :
    ∃ r, db.matchObject player name = some r ∧
      Resolves (fun oid => db.Near player oid ∧ ∃ n ∈ db.namesOf oid, IsExact name n)
        (fun oid => db.Near player oid ∧ ∃ n ∈ db.namesOf oid, IsPartial name n) r ∧
      ∀ db' : Db, Intact db' → player ∈ db'.dom → (∀ oid, db'.Near player oid ↔ db.Near player oid) →
        (∀ oid, db.Near player oid → (db'.namesOf oid).Perm (db.namesOf oid)) →
        db'.matchObject player name = some r := by
  obtain ⟨r, hr, hresolves⟩ := matchContents_resolves hi hplayer ht
  refine ⟨r, (matchObject_eq hi hplayer hne hhash hme hhere).trans hr, hresolves, ?_⟩
  intro db' hi' hplayer' hnear hnames
  obtain ⟨r', hr', hresolves'⟩ := matchContents_resolves hi' hplayer' ht
  have hsame : ∀ kind : Str → Prop, (fun oid => db'.Near player oid ∧ ∃ n ∈ db'.namesOf oid, kind n) =
      fun oid => db.Near player oid ∧ ∃ n ∈ db.namesOf oid, kind n := by
    intro kind
    funext oid
    apply propext
    rw [hnear]
    apply and_congr_right
    intro h
    constructor
    · rintro ⟨n, hn, hkind⟩
      exact ⟨n, (hnames oid h).mem_iff.mp hn, hkind⟩
    · rintro ⟨n, hn, hkind⟩
      exact ⟨n, (hnames oid h).mem_iff.mpr hn, hkind⟩
  rw [hsame, hsame] at hresolves'
  rw [matchObject_eq hi' hplayer' hne hhash hme hhere, hr', hresolves'.unique hresolves]

def rearranging : List Call :=
  named 5 "red boxer".toList [strOf "boxer".toList] ++ named 6 "ring".toList [] ++
    named 4 "gloves".toList [strOf "blue gloves".toList, strOf "thing".toList] ++
    named 3 "red box".toList [strOf "thing".toList, strOf "box".toList, objOf 3] ++
    [.moveAccepted 0 6 3 true, .moveAccepted 0 5 1 true, .moveAccepted 0 4 2 true, .moveAccepted 0 3 1 true,
      .moveAccepted 0 2 1 true]

def rearranged : Db := (performAll (calmly (built ++ rearranging)) empty).getD empty

theorem rearranged_intact : Intact rearranged := by
  have hsome : (performAll (calmly (built ++ rearranging)) empty).isSome = true := by decide +kernel
  obtain ⟨db, hdb⟩ := Option.isSome_iff_exists.mp hsome
  have hdb' : rearranged = db := by rw [rearranged, hdb, Option.getD_some]
  rw [hdb']
  have hrun : Run (fun _ _ _ => True) empty db :=
    performAll_run (calmly (built ++ rearranging)) (fun _ _ _ => trivial) hdb
  exact hrun.intact empty_intact

attribute [irreducible] rearranged

theorem near_iff (hi : Intact db) {place : Objid} (hplace : db.upOf .place player = place)
    (hplayer : db.valid player = true) (hvalid : db.valid place = true) {mine there : List Objid}
    (hmine : db.membersOf .place player = some mine) (hthere : db.membersOf .place place = some there) :
    db.Near player oid ↔ oid ∈ mine ++ there := by
  have hdom := hi.sound.valid_iff.mp hvalid
  obtain ⟨o, ho⟩ := mem_dom.mp (hi.sound.valid_iff.mp hplayer)
  obtain ⟨o', ho'⟩ := mem_dom.mp hdom
  obtain ⟨l, hl, -, hin⟩ := hi.sound.membersOf_eq (h := .place) ho
  obtain ⟨l', hl', -, hin'⟩ := hi.sound.membersOf_eq (h := .place) ho'
  obtain rfl := Option.some.inj (hl.symm.trans hmine)
  obtain rfl := Option.some.inj (hl'.symm.trans hthere)
  unfold Near
  rw [List.mem_append, hin, hin', hplace, and_iff_right hdom, ← and_or_left]

theorem house_near : house.Near 2 oid ↔ oid ∈ [4] ++ [2, 3, 5] :=
  near_iff house_intact (show house.upOf .place 2 = 1 by decide +kernel) (by decide +kernel) (by decide +kernel)
    (by decide +kernel) (by decide +kernel)

theorem rearranged_near : rearranged.Near 2 oid ↔ oid ∈ [4] ++ [5, 3, 2] :=
  near_iff rearranged_intact (show rearranged.upOf .place 2 = 1 by decide +kernel) (by decide +kernel) (by decide +kernel)
    (by decide +kernel) (by decide +kernel)

/-- What the visitor means by some names: one object of that name, though another name begins with it; one
name that begins so; two; two objects of one name; and one that is out of reach. -/
def asked : List (Str × Objid) :=
  [("box".toList, 3), ("BL".toList, 4), ("red".toList, ambiguous), ("thing".toList, ambiguous),
    ("ring".toList, failedMatch)]

theorem matchObject_resolves_house :
    (house.membersOf .place 1 = some [2, 3, 5] ∧ rearranged.membersOf .place 1 = some [5, 3, 2]) ∧
    ∀ a ∈ asked, house.matchObject 2 a.1 = some a.2 ∧
      Resolves (fun oid => house.Near 2 oid ∧ ∃ n ∈ house.namesOf oid, IsExact a.1 n)
        (fun oid => house.Near 2 oid ∧ ∃ n ∈ house.namesOf oid, IsPartial a.1 n) a.2 ∧
      rearranged.matchObject 2 a.1 = some a.2 := by
  refine ⟨by decide +kernel, fun a ha => ?_⟩
  have hplain : ∀ a ∈ asked, Terminated a.1 ∧ a.1 ≠ [] ∧ a.1.head? ≠ some '#' ∧
      sameName a.1 "me".toList = false ∧ sameName a.1 "here".toList = false := by decide
  have hanswers : ∀ a ∈ asked, house.matchObject 2 a.1 = some a.2 := by decide +kernel
  have hnames : ∀ oid ∈ [4, 2, 3, 5], (rearranged.namesOf oid).Perm (house.namesOf oid) := by decide +kernel
  have hvalid : house.valid 2 = true ∧ rearranged.valid 2 = true := by decide +kernel
  obtain ⟨ht, hne, hhash, hme, hhere⟩ := hplain a ha
  obtain ⟨r, hr, hresolves, hsame⟩ := matchObject_resolves house 2 a.1 house_intact
    (house_intact.sound.valid_iff.mp hvalid.1) ht hne hhash hme hhere
  have hra : r = a.2 := Option.some.inj (hr.symm.trans (hanswers a ha))
  rw [hra] at hr hresolves hsame
  refine ⟨hr, hresolves, hsame rearranged rearranged_intact (rearranged_intact.sound.valid_iff.mp hvalid.2)
    (fun oid => ?_) fun oid hnear => hnames oid (house_near.mp hnear)⟩
  rw [house_near, rearranged_near]
  simp only [List.cons_append, List.nil_append, List.mem_cons, List.not_mem_nil, or_false]
  tauto

end Db

end LambdaMoo
