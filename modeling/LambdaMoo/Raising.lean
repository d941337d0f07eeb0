import LambdaMoo.RunLoop

/-! An error that is raised, from the search for its handler to the activation that takes it. On the
way the `finally` parts run, each until `EOP_CONTINUE` goes on with what was left for it on the
stack. -/
namespace LambdaMoo

variable {D W : Type}

def Var.isMarker : Var → Bool
  | .catchMarker _ | .finallyMarker _ => true
  | _ => false

/-- An arm of a `try`, or the one of a catch expression: its codes, which are no list for `ANY`, and
its place. -/
structure HandlerArm where
  codes : Var
  pc : Nat
  plain : codes.isMarker = false

/-- What the code of a verb puts on the stack of its activation: a value, arms that are in force, or
a `finally` part that is to be run. -/
inductive StackItem
  | value (v : Var) (plain : v.isMarker = false)
  | except (arms : List HandlerArm)
  | finally_ (pc : Nat)

def armsFlat (arms : List HandlerArm) : List Var := arms.flatMap fun arm => [arm.codes, .int arm.pc]

def StackItem.flat : StackItem → List Var
  | .value v _ => [v]
  | .except arms => .catchMarker arms.length :: (armsFlat arms).reverse
  | .finally_ pc => [.finallyMarker pc]

def flatItems (items : List StackItem) : List Var := items.flatMap StackItem.flat

/-- An activation whose stack is made of items. -/
structure Framed (D : Type) where
  activation : StackedActivation D
  items : List StackItem
  laid : activation.rts = flatItems items

def activations (fs : List (Framed D)) : List (StackedActivation D) := fs.map Framed.activation

inductive Handler
  | arm (arm : HandlerArm)
  | finally_ (pc : Nat)

/-- A place where the unwinding of a stack can stop: a handler, what is below it on the stack of its
activation, and the activations below that one. -/
structure Site (D : Type) where
  handler : Handler
  below : List StackItem
  rest : List (Framed D)

/-- The sites of one activation, the innermost one first, and the arms of a `try` in the order of the
source. -/
def sitesOf (rest : List (Framed D)) : List StackItem → List (Site D)
  | [] => []
  | .value _ _ :: items => sitesOf rest items
  | .except arms :: items => (arms.map fun arm => ⟨.arm arm, items, rest⟩) ++ sitesOf rest items
  | .finally_ pc :: items => ⟨.finally_ pc, items, rest⟩ :: sitesOf rest items

def sites : List (Framed D) → List (Site D)
  | [] => []
  | f :: fs => sitesOf fs f.items ++ sites fs

namespace Site

def takes (code : Var) (s : Site D) : Bool :=
  match s.handler with
  | .arm arm => armTakes code arm.codes
  | .finally_ _ => false

def isFinally (s : Site D) : Bool :=
  match s.handler with
  | .arm _ => false
  | .finally_ _ => true

def stops (why : Reason) (code : Var) (s : Site D) : Bool :=
  match s.handler with
  | .arm arm => why = .raise && armTakes code arm.codes
  | .finally_ _ => why ≠ .abort

def pc (s : Site D) : Nat :=
  match s.handler with
  | .arm arm => arm.pc
  | .finally_ pc => pc

def rts (why : Reason) (value : Var) (s : Site D) : List Var :=
  match s.handler with
  | .arm _ => value :: flatItems s.below
  | .finally_ _ => value :: .int why.num :: flatItems s.below

def depth (fs : List (Framed D)) (s : Site D) : Nat := fs.length - (s.rest.length + 1)

/-- Control is at the handler, in the activation as it was or as a `finally` part has left it, and the
activations below are all there. -/
def Entered (why : Reason) (value : Var) (s : Site D) (stack : List (StackedActivation D)) : Prop :=
  ∃ a : StackedActivation D, stack = { a with pc := s.pc, rts := s.rts why value } :: activations s.rest

end Site

def target (code : Var) (l : List (Site D)) : Option (Site D) := l.find? (Site.takes code)

/-- The `finally` parts before that arm, or all of them if there is none. -/
def finallies (code : Var) (l : List (Site D)) : List (Site D) :=
  (l.takeWhile fun s => !s.takes code).filter Site.isFinally

/-! The two loops over the stack of an activation see the same sites. -/

theorem armsOf_flat (arms : List HandlerArm) :
    armsOf (armsFlat arms) = arms.map fun arm => (arm.codes, .int arm.pc) := by
  induction arms with
  | nil => rfl
  | cons arm arms ih => exact congrArg _ ih

theorem length_armsFlat (arms : List HandlerArm) : (armsFlat arms).length = 2 * arms.length := by
  induction arms with
  | nil => rfl
  | cons arm arms ih =>
      change (armsFlat arms).length + 1 + 1 = 2 * (arms.length + 1)
      rw [ih]
      omega

theorem armsBelow_flat (arms : List HandlerArm) (rts : List Var) :
    armsBelow arms.length ((armsFlat arms).reverse ++ rts) = arms.map fun arm => (arm.codes, .int arm.pc) := by
  have hlength : (armsFlat arms).reverse.length = 2 * arms.length := by
    rw [List.length_reverse, length_armsFlat]
  rw [armsBelow, ← hlength, List.take_left, List.reverse_reverse, armsOf_flat]

theorem isMarker_armsFlat {arms : List HandlerArm} : ∀ v ∈ (armsFlat arms).reverse, v.isMarker = false := by
  intro v hv
  obtain ⟨arm, -, hv⟩ := List.mem_flatMap.mp (List.mem_reverse.mp hv)
  rw [List.mem_cons, List.mem_singleton] at hv
  obtain rfl | rfl := hv
  · exact arm.plain
  · rfl

section

variable {why : Reason} {code value : Var}

theorem unwindRts_skip (goal : Nat) (l rts : List Var) :
    unwindRts why code value goal l.length (l ++ rts) = unwindRts why code value goal 0 rts := by
  induction l with
  | nil => rfl
  | cons v l ih =>
      rw [List.cons_append, List.length_cons, unwindRts]
      exact ih

theorem hasHandler_skip (l rts : List Var) : hasHandler code l.length (l ++ rts) = hasHandler code 0 rts := by
  induction l with
  | nil => rfl
  | cons v l ih =>
      rw [List.cons_append, List.length_cons, hasHandler]
      exact ih

theorem unwindRts_plain {v : Var} (hv : v.isMarker = false) (rts : List Var) :
    unwindRts why code value 0 0 (v :: rts) = unwindRts why code value 0 0 rts := by
  rw [unwindRts.eq_def]
  dsimp only
  rw [if_neg (Nat.not_succ_le_zero _)]
  cases v with
  | catchMarker => cases hv
  | finallyMarker => cases hv
  | _ => rfl

theorem unwindRts_plains {l : List Var} (hl : ∀ v ∈ l, v.isMarker = false) (rts : List Var) :
    unwindRts why code value 0 0 (l ++ rts) = unwindRts why code value 0 0 rts := by
  induction l with
  | nil => rfl
  | cons v l ih =>
      rw [List.cons_append, unwindRts_plain (hl v List.mem_cons_self)]
      exact ih fun v hv => hl v (List.mem_cons_of_mem _ hv)

theorem hasHandler_plain {v : Var} (hv : v.isMarker = false) (rts : List Var) :
    hasHandler code 0 (v :: rts) = hasHandler code 0 rts := by
  cases v with
  | catchMarker => cases hv
  | _ => rfl

theorem unwindRts_items (rest : List (Framed D)) (items : List StackItem) :
    unwindRts why code value 0 0 (flatItems items) =
      some (match (sitesOf rest items).find? (Site.stops why code) with
        | some s => .handler s.pc (s.rts why value)
        | none => .goal []) := by
  induction items with
  | nil => rfl
  | cons item items ih =>
      rw [flatItems, List.flatMap_cons, ← flatItems]
      cases item with
      | value v plain =>
          rw [StackItem.flat, List.singleton_append, unwindRts_plain plain, ih]
          rfl
      | finally_ pc =>
          rw [StackItem.flat, List.singleton_append, unwindRts, if_neg (Nat.not_succ_le_zero _), sitesOf]
          by_cases hwhy : why = .abort
          · rw [List.find?_cons_of_neg (by simp [Site.stops, hwhy])]
            subst hwhy
            exact ih
          · rw [List.find?_cons_of_pos (by simp [Site.stops, hwhy])]
            simp only [ne_eq, hwhy, not_false_eq_true, if_true]
            rfl
      | except arms =>
          have hlength : (armsFlat arms).reverse.length = 2 * arms.length := by
            rw [List.length_reverse, length_armsFlat]
          rw [StackItem.flat, List.cons_append, unwindRts, if_neg (Nat.not_succ_le_zero _), sitesOf, List.find?_append,
            List.find?_map]
          by_cases hwhy : why = .raise
          · rw [if_pos hwhy, if_neg (by rw [List.length_append, hlength]; omega), armsBelow_flat, List.find?_map]
            have hstops : (Site.stops why code ∘ fun arm => (⟨.arm arm, items, rest⟩ : Site D)) =
                (fun arm : Var × Var => armTakes code arm.1) ∘ fun arm : HandlerArm => (arm.codes, .int arm.pc) := by
              funext arm
              simp [Site.stops, hwhy]
            rw [hstops]
            cases arms.find? _ with
            | some arm =>
                simp only [Option.map_some, Option.some_or, ← hlength, List.drop_left]
                rfl
            | none =>
                simp only [Option.map_none, Option.none_or, ← hlength, unwindRts_skip]
                exact ih
          · rw [if_neg hwhy, unwindRts_plains isMarker_armsFlat, List.find?_eq_none.mpr]
            · exact ih
            · intro arm _
              simp [Site.stops, hwhy]

theorem hasHandler_items (rest : List (Framed D)) (items : List StackItem) :
    hasHandler code 0 (flatItems items) = (sitesOf rest items).any (Site.takes code) := by
  induction items with
  | nil => rfl
  | cons item items ih =>
      rw [flatItems, List.flatMap_cons, ← flatItems]
      cases item with
      | value v plain =>
          rw [StackItem.flat, List.singleton_append, hasHandler_plain plain]
          exact ih
      | finally_ pc => exact ih
      | except arms =>
          have hlength : (armsFlat arms).reverse.length = 2 * arms.length := by
            rw [List.length_reverse, length_armsFlat]
          rw [StackItem.flat, List.cons_append, hasHandler, armsBelow_flat, ← hlength, hasHandler_skip, ih, sitesOf,
            List.any_append, List.any_map, List.any_map]
          rfl

end

/-! The search for a handler. -/

theorem rest_of_mem {rest : List (Framed D)} {items : List StackItem} {s : Site D} (hs : s ∈ sitesOf rest items) :
    s.rest = rest := by
  induction items with
  | nil => exact absurd hs List.not_mem_nil
  | cons item items ih =>
      cases item with
      | value v plain => exact ih hs
      | except arms =>
          obtain hs | hs := List.mem_append.mp hs
          · obtain ⟨arm, -, rfl⟩ := List.mem_map.mp hs
            rfl
          · exact ih hs
      | finally_ pc =>
          obtain rfl | hs := List.mem_cons.mp hs
          · rfl
          · exact ih hs

theorem length_rest_lt {fs : List (Framed D)} {s : Site D} (hs : s ∈ sites fs) : s.rest.length < fs.length := by
  induction fs with
  | nil => exact absurd hs List.not_mem_nil
  | cons f fs ih =>
      rw [List.length_cons]
      obtain hs | hs := List.mem_append.mp hs
      · rw [rest_of_mem hs]
        omega
      · have h := ih hs
        omega

theorem depth_cons {f : Framed D} {fs : List (Framed D)} {s : Site D} (hs : s ∈ sites fs) :
    s.depth (f :: fs) = s.depth fs + 1 := by
  have h := length_rest_lt hs
  rw [Site.depth, Site.depth, List.length_cons]
  omega

theorem findHandlerActiv_eq (code : Var) (fs : List (Framed D)) :
    findHandlerActiv code (activations fs) = (target code (sites fs)).map (Site.depth fs) := by
  induction fs with
  | nil => rfl
  | cons f fs ih =>
      rw [findHandlerActiv, activations, List.map_cons, List.findIdx?_cons, f.laid, hasHandler_items fs,
        sites, target, List.find?_append]
      cases hany : (sitesOf fs f.items).any (Site.takes code) with
      | true =>
          obtain ⟨s, hs, htakes⟩ := List.any_eq_true.mp hany
          obtain ⟨s', hs'⟩ := Option.isSome_iff_exists.mp (List.find?_isSome.mpr ⟨s, hs, htakes⟩)
          rw [hs', Option.some_or, Option.map_some, if_pos rfl, Site.depth,
            rest_of_mem (List.mem_of_find?_eq_some hs'), List.length_cons, Nat.sub_self]
      | false =>
          have hnone : (sitesOf fs f.items).find? (Site.takes code) = none := by
            rw [List.find?_eq_none]
            exact fun s hs htakes => Bool.false_ne_true (hany.symm.trans (List.any_eq_true.mpr ⟨s, hs, htakes⟩))
          rw [hnone, Option.none_or, if_neg Bool.false_ne_true]
          change Option.map (· + 1) (findHandlerActiv code (activations fs)) = _
          rw [ih, target]
          cases hfind : (sites fs).find? (Site.takes code) with
          | none => rfl
          | some s => exact congrArg some (depth_cons (List.mem_of_find?_eq_some hfind)).symm

/-! The unwinding. -/

section

variable {callBiFunc : Invocation D → W → BiPackage D × W} {makeStackList : List (StackedActivation D) → Var}
  {why : Reason} {code value : Var}

/-- A built-in function that is only gone on with so that it can end does so. -/
def BuiltinsEnd (callBiFunc : Invocation D → W → BiPackage D × W) : Prop :=
  ∀ (caller : StackedActivation D) (why : Reason) (a : StackedActivation D) (bi : BiFunc D) (w : W),
    ∃ fuel w', (squelch callBiFunc caller why fuel a bi w).2 = some w'

def landing (why : Reason) (code value : Var) : List (Framed D) → Unwound D
  | [] => .stops .aborted
  | f :: fs =>
      match (sitesOf fs f.items).find? (Site.stops why code) with
      | some s => .resumes ({ f.activation with pc := s.pc, rts := s.rts why value } :: activations fs)
      | none => landing why code value fs

theorem squelch_mono {caller : StackedActivation D} {fuel fuel' : Nat} (hle : fuel ≤ fuel') {a : StackedActivation D}
    {bi : BiFunc D} {w w' : W} (h : (squelch callBiFunc caller why fuel a bi w).2 = some w') :
    (squelch callBiFunc caller why fuel' a bi w).2 = some w' := by
  induction fuel generalizing fuel' a bi w with
  | zero => cases h
  | succ fuel ih =>
      obtain ⟨fuel', rfl⟩ := Nat.exists_eq_add_of_lt hle
      rw [squelch] at h ⊢
      dsimp only at h ⊢
      generalize callBiFunc ⟨bi.id, zero, bi.pc, a.progr, bi.data⟩ w = r at h ⊢
      obtain ⟨p, w₁⟩ := r
      cases p with
      | call pc data pushed =>
          dsimp only at h ⊢
          split
          · next hpc => rwa [if_pos hpc] at h
          · next hpc =>
              rw [if_neg hpc] at h
              exact ih (Nat.le_add_right _ _) h
      | _ => exact h

theorem unwindActivation_eq (hcode : codeOf why value = some code) (hexit : why ≠ .exit) (f : Framed D)
    (rest : List (Framed D)) :
    unwindActivation why value f.activation =
      some (((sitesOf rest f.items).find? (Site.stops why code)).map
        fun s => { f.activation with pc := s.pc, rts := s.rts why value }) := by
  have hgoal : exitOf why value = some (0, 0) := by
    cases why with
    | exit => exact absurd rfl hexit
    | _ => rfl
  rw [unwindActivation, hcode, hgoal, f.laid]
  simp only [Option.bind_eq_bind, Option.bind_some, unwindRts_items rest]
  cases (sitesOf rest f.items).find? (Site.stops why code) with
  | some s => rfl
  | none => exact if_neg hexit

theorem passCaller_again {fuel : Nat} {a caller : StackedActivation D} {rest : List (StackedActivation D)} {w w' : W}
    {p : Passed D} (hreturn : why ≠ .return_)
    (h : (passCaller callBiFunc makeStackList fuel a caller rest why value w).2 = some (p, w')) :
    p = .again why value := by
  rw [passCaller] at h
  split at h
  · dsimp only at h
    rw [if_neg hreturn] at h
    cases h
    rfl
  · rw [if_neg hreturn] at h
    obtain ⟨_, -, h⟩ := Option.map_eq_some_iff.mp h
    cases h
    rfl

theorem passCaller_returns (hends : BuiltinsEnd callBiFunc) (hreturn : why ≠ .return_) (a caller : StackedActivation D)
    (rest : List (StackedActivation D)) (w : W) :
    ∃ N w', ∀ fuel, N ≤ fuel →
      (passCaller callBiFunc makeStackList fuel a caller rest why value w).2 = some (.again why value, w') := by
  cases hbi : a.biFunc with
  | none =>
      refine ⟨0, w, fun fuel _ => ?_⟩
      rw [passCaller, hbi]
      dsimp only
      rw [if_neg hreturn]
  | some bi =>
      obtain ⟨N, w', hsquelch⟩ := hends caller why a bi w
      refine ⟨N, w', fun fuel hle => ?_⟩
      rw [passCaller, hbi]
      dsimp only
      rw [if_neg hreturn]
      dsimp only
      rw [squelch_mono hle hsquelch]
      rfl

theorem unwindStack_lands (hcode : codeOf why value = some code) (hexit : why ≠ .exit) (hreturn : why ≠ .return_)
    {fuel : Nat} {fs : List (Framed D)} {w w' : W} {u : Unwound D}
    (h : (unwindStack callBiFunc makeStackList fuel (activations fs) why value w).2 = some (u, w')) :
    u = landing why code value fs := by
  induction fs generalizing w with
  | nil => cases h
  | cons f fs ih =>
      rw [landing]
      rw [activations, List.map_cons, ← activations, unwindStack.eq_def] at h
      dsimp only at h
      rw [unwindActivation_eq hcode hexit f fs] at h
      cases hfind : (sitesOf fs f.items).find? (Site.stops why code) with
      | some s =>
          rw [hfind] at h
          cases h
          rfl
      | none =>
          rw [hfind] at h
          cases fs with
          | nil =>
              cases h
              rw [if_neg hreturn]
              rfl
          | cons g fs =>
              simp only [Option.map_none, activations, List.map_cons] at h
              generalize hpass : passCaller callBiFunc makeStackList fuel f.activation g.activation
                (fs.map Framed.activation) why value w = passed at h
              obtain ⟨rs, _ | ⟨p, w₁⟩⟩ := passed
              · cases h
              · obtain rfl := passCaller_again hreturn (congrArg Prod.snd hpass)
                exact ih h

theorem unwindStack_returns (hends : BuiltinsEnd callBiFunc) (hcode : codeOf why value = some code)
    (hexit : why ≠ .exit) (hreturn : why ≠ .return_) {fs : List (Framed D)} (hfs : fs ≠ []) (w : W) :
    ∃ N w', ∀ fuel, N ≤ fuel → (unwindStack callBiFunc makeStackList fuel (activations fs) why value w).2 =
      some (landing why code value fs, w') := by
  induction fs generalizing w with
  | nil => exact absurd rfl hfs
  | cons f fs ih =>
      rw [landing, activations, List.map_cons, ← activations]
      cases hfind : (sitesOf fs f.items).find? (Site.stops why code) with
      | some s =>
          refine ⟨0, w, fun fuel _ => ?_⟩
          rw [unwindStack.eq_def]
          dsimp only
          rw [unwindActivation_eq hcode hexit f fs, hfind]
          rfl
      | none =>
          cases fs with
          | nil =>
              refine ⟨0, w, fun fuel _ => ?_⟩
              rw [unwindStack.eq_def]
              dsimp only
              rw [unwindActivation_eq hcode hexit f [], hfind]
              simp only [Option.map_none, activations, List.map_nil, if_neg hreturn]
              rfl
          | cons g fs =>
              obtain ⟨N, w₁, hpass⟩ := @passCaller_returns D W callBiFunc makeStackList why value hends hreturn
                f.activation g.activation (activations fs) w
              obtain ⟨N', w', hbelow⟩ := ih (List.cons_ne_nil _ _) w₁
              refine ⟨max N N', w', fun fuel hle => ?_⟩
              have hpassed := hpass fuel (Nat.le_trans (Nat.le_max_left N N') hle)
              have hlanded := hbelow fuel (Nat.le_trans (Nat.le_max_right N N') hle)
              rw [activations, List.map_cons, ← activations] at hlanded ⊢
              rw [unwindStack.eq_def]
              dsimp only
              rw [unwindActivation_eq hcode hexit f (g :: fs), hfind]
              simp only [Option.map_none]
              generalize passCaller callBiFunc makeStackList fuel f.activation g.activation (activations fs) why value w =
                passed at hpassed ⊢
              obtain ⟨rs, _ | ⟨p, w₂⟩⟩ := passed
              · cases hpassed
              · cases hpassed
                exact hlanded

end

/-! Where a site is. -/

def Site.LiesOn (s : Site D) (rts : List Var) : Prop :=
  match s.handler with
  | .arm _ => flatItems s.below <:+ rts
  | .finally_ pc => .finallyMarker pc :: flatItems s.below <:+ rts

theorem Site.LiesOn.above {s : Site D} {rts : List Var} (h : s.LiesOn rts) (l : List Var) : s.LiesOn (l ++ rts) := by
  rw [Site.LiesOn] at h ⊢
  split at h
  · exact h.trans (List.suffix_append _ _)
  · exact h.trans (List.suffix_append _ _)

theorem liesOn_of_mem {rest : List (Framed D)} {items : List StackItem} {s : Site D} (hs : s ∈ sitesOf rest items) :
    s.LiesOn (flatItems items) := by
  induction items with
  | nil => exact absurd hs List.not_mem_nil
  | cons item items ih =>
      have hlater (h : s ∈ sitesOf rest items) : s.LiesOn (flatItems (item :: items)) := (ih h).above item.flat
      cases item with
      | value v plain => exact hlater hs
      | except arms =>
          obtain hs | hs := List.mem_append.mp hs
          · obtain ⟨arm, -, rfl⟩ := List.mem_map.mp hs
            exact List.suffix_append _ _
          · exact hlater hs
      | finally_ pc =>
          obtain rfl | hs := List.mem_cons.mp hs
          · exact List.suffix_refl _
          · exact hlater hs

section

variable {why : Reason} {code value : Var} {fs : List (Framed D)} {s : Site D}

theorem landing_some (h : (sites fs).find? (Site.stops why code) = some s) :
    ∃ a, a :: activations s.rest <:+ activations fs ∧ s.LiesOn a.rts ∧
      landing why code value fs = .resumes ({ a with pc := s.pc, rts := s.rts why value } :: activations s.rest) := by
  induction fs with
  | nil => cases h
  | cons f fs ih =>
      rw [sites, List.find?_append] at h
      rw [landing]
      cases hfind : (sitesOf fs f.items).find? (Site.stops why code) with
      | some s' =>
          rw [hfind] at h
          obtain rfl := Option.some.inj h
          have hmem := List.mem_of_find?_eq_some hfind
          rw [rest_of_mem hmem]
          refine ⟨f.activation, List.suffix_refl _, ?_, rfl⟩
          rw [f.laid]
          exact liesOn_of_mem hmem
      | none =>
          rw [hfind] at h
          obtain ⟨a, hsuffix, hlies, hlanding⟩ := ih h
          exact ⟨a, hsuffix.trans (List.suffix_cons _ _), hlies, hlanding⟩

theorem landing_none (h : (sites fs).find? (Site.stops why code) = none) :
    landing why code value fs = .stops .aborted := by
  induction fs with
  | nil => rfl
  | cons f fs ih =>
      rw [sites, List.find?_append, Option.or_eq_none_iff] at h
      rw [landing, h.1]
      exact ih h.2

theorem sitesOf_split {rest : List (Framed D)} {items : List StackItem}
    (h : (sitesOf rest items).find? (Site.stops why code) = some s) (hs : s.isFinally = true) :
    ∃ pre, sitesOf rest items = pre ++ s :: sitesOf rest s.below ∧ ∀ x ∈ pre, x.stops why code = false := by
  induction items with
  | nil => cases h
  | cons item items ih =>
      cases item with
      | value v plain => exact ih h
      | except arms =>
          rw [sitesOf, List.find?_append] at h
          cases hfind : (arms.map fun arm => (⟨.arm arm, items, rest⟩ : Site D)).find? (Site.stops why code) with
          | some s' =>
              rw [hfind] at h
              obtain rfl := Option.some.inj h
              obtain ⟨arm, -, rfl⟩ := List.mem_map.mp (List.mem_of_find?_eq_some hfind)
              cases hs
          | none =>
              rw [hfind] at h
              obtain ⟨pre, hsplit, hpre⟩ := ih h
              refine ⟨(arms.map fun arm => ⟨.arm arm, items, rest⟩) ++ pre, ?_, fun x hx => ?_⟩
              · rw [sitesOf, hsplit, List.append_assoc]
              · obtain hx | hx := List.mem_append.mp hx
                · exact Bool.not_eq_true _ ▸ List.find?_eq_none.mp hfind x hx
                · exact hpre x hx
      | finally_ pc =>
          rw [sitesOf, List.find?_cons] at h
          split at h
          · obtain rfl := Option.some.inj h
            exact ⟨[], rfl, fun x hx => absurd hx List.not_mem_nil⟩
          · next hno =>
              obtain ⟨pre, hsplit, hpre⟩ := ih h
              refine ⟨⟨.finally_ pc, items, rest⟩ :: pre, by rw [sitesOf, hsplit, List.cons_append], fun x hx => ?_⟩
              obtain rfl | hx := List.mem_cons.mp hx
              · exact hno
              · exact hpre x hx

theorem sites_split (h : (sites fs).find? (Site.stops why code) = some s) (hs : s.isFinally = true) :
    ∃ pre, sites fs = pre ++ s :: (sitesOf s.rest s.below ++ sites s.rest) ∧ ∀ x ∈ pre, x.stops why code = false := by
  induction fs with
  | nil => cases h
  | cons f fs ih =>
      rw [sites, List.find?_append] at h
      cases hfind : (sitesOf fs f.items).find? (Site.stops why code) with
      | some s' =>
          rw [hfind] at h
          obtain rfl := Option.some.inj h
          obtain ⟨pre, hsplit, hpre⟩ := sitesOf_split hfind hs
          refine ⟨pre, ?_, hpre⟩
          rw [sites, hsplit, rest_of_mem (List.mem_of_find?_eq_some hfind), List.append_assoc, List.cons_append]
      | none =>
          rw [hfind] at h
          obtain ⟨pre, hsplit, hpre⟩ := ih h
          refine ⟨sitesOf fs f.items ++ pre, by rw [sites, hsplit, List.append_assoc], fun x hx => ?_⟩
          obtain hx | hx := List.mem_append.mp hx
          · exact Bool.not_eq_true _ ▸ List.find?_eq_none.mp hfind x hx
          · exact hpre x hx

end

/-! The course of an unwinding through the `finally` parts. -/

def Unwound.round (w : W) (result : Option Var) : Unwound D → Round D W
  | .resumes stack => .goes ⟨stack, w, result⟩
  | .stops outcome => .ends outcome result

/-- The unwinding of a stack has stopped at a `finally` part. The marker was on the stack of an
activation, and this one goes on at its place, with the reason and the value over what was below. -/
def EntersFinally (why : Reason) (value : Var) (stack : List (StackedActivation D)) (u : Unwound D)
    (below : List Var) : Prop :=
  ∃ (a : StackedActivation D) (rest : List (StackedActivation D)) (pc : Nat),
    a :: rest <:+ stack ∧ .finallyMarker pc :: below <:+ a.rts ∧
      u = .resumes ({ a with pc := pc, rts := value :: .int why.num :: below } :: rest)

section

variable (callBiFunc : Invocation D → W → BiPackage D × W) (makeStackList : List (StackedActivation D) → Var)
  (unparseError : Error → Str)

/-- The stacks with which the `finally` parts are entered, one after the other, and where the unwinding
leads in the end. What runs in such a part is anything that gives back its activation with the stack
as it was, when it comes to its end; else the unwinding ends there. -/
inductive Course (why : Reason) (value : Var) :
    List (StackedActivation D) → Unwound D → List (List (StackedActivation D)) → Option (Unwound D) → Prop
  | ends {stack : List (StackedActivation D)} {u : Unwound D} (hno : ∀ below, ¬ EntersFinally why value stack u below) :
      Course why value stack u [] (some u)
  | left {stack entered : List (StackedActivation D)} {below : List Var}
      (henters : EntersFinally why value stack (.resumes entered) below) :
      Course why value stack (.resumes entered) [entered] none
  | on {stack rest : List (StackedActivation D)} {a a' : StackedActivation D} {below : List Var} {fuel : Nat} {w w' : W}
      {result : Option Var} {u : Unwound D} {es : List (List (StackedActivation D))} {e : Option (Unwound D)}
      (henters : EntersFinally why value stack (.resumes (a :: rest)) below) (hbody : a'.rts = a.rts)
      (hcontinue : Instruction.execute callBiFunc makeStackList unparseError fuel .continue_ ⟨a' :: rest, w, result⟩ =
        some (u.round w' result))
      (hcourse : Course why value ({ a' with rts := below } :: rest) u es e) :
      Course why value stack (.resumes (a :: rest)) ((a :: rest) :: es) e

end

section

variable {callBiFunc : Invocation D → W → BiPackage D × W} {makeStackList : List (StackedActivation D) → Var}
  {unparseError : Error → Str} {why : Reason} {code value : Var} {fs : List (Framed D)} {s : Site D}

theorem of_raised (hwhy : why = .raise ∨ why = .uncaught) : why ≠ .exit ∧ why ≠ .return_ := by
  obtain rfl | rfl := hwhy
  · exact ⟨Reason.noConfusion, Reason.noConfusion⟩
  · exact ⟨Reason.noConfusion, Reason.noConfusion⟩

theorem continue_eq (hwhy : why = .raise ∨ why = .uncaught) {fuel : Nat} {a : StackedActivation D}
    {rest : List (StackedActivation D)} {below : List Var} {w : W} {result : Option Var}
    (ha : a.rts = value :: .int why.num :: below) :
    Instruction.execute callBiFunc makeStackList unparseError fuel .continue_ ⟨a :: rest, w, result⟩ =
      (unwindStack callBiFunc makeStackList fuel ({ a with rts := below } :: rest) why value w).2.map
        fun p => p.1.round p.2 result := by
  have hreason : reasonOf why.num = some why := by
    obtain rfl | rfl := hwhy
    · rfl
    · rfl
  have hexecute : Instruction.execute callBiFunc makeStackList unparseError fuel .continue_ ⟨a :: rest, w, result⟩ =
      RunState.unwind callBiFunc makeStackList fuel ⟨{ a with rts := below } :: rest, w, result⟩ why value
        fun outcome => .ends outcome result := by
    rw [Instruction.execute]
    dsimp only
    rw [ha]
    dsimp only
    rw [hreason]
    obtain rfl | rfl := hwhy
    · rfl
    · rfl
  rw [hexecute, RunState.unwind]
  dsimp only
  generalize (unwindStack callBiFunc makeStackList fuel ({ a with rts := below } :: rest) why value w).2 = unwound
  cases unwound with
  | none => rfl
  | some p =>
      obtain ⟨u, w'⟩ := p
      cases u <;> rfl

theorem entersFinally_iff {below : List Var} :
    EntersFinally why value (activations fs) (landing why code value fs) below ↔
      ∃ s, (sites fs).find? (Site.stops why code) = some s ∧ s.isFinally = true ∧ below = flatItems s.below := by
  constructor
  · rintro ⟨a, rest, pc, hsuffix, hmarker, hlanding⟩
    cases hfind : (sites fs).find? (Site.stops why code) with
    | none =>
        rw [landing_none hfind] at hlanding
        cases hlanding
    | some s =>
        obtain ⟨a', hsuffix', hlies, hlanding'⟩ := @landing_some D why code value fs s hfind
        obtain ⟨ha, hrest⟩ := List.cons.inj (Unwound.resumes.inj (hlanding'.symm.trans hlanding))
        have hsame : a' = a := by
          have hle := List.suffix_of_suffix_length_le hsuffix' hsuffix (by rw [hrest]; exact Nat.le_refl _)
          exact (List.cons.inj (hle.eq_of_length (by rw [hrest]; rfl))).1
        have hrts : s.rts why value = value :: .int why.num :: below := congrArg (fun x => x.rts) ha
        refine ⟨s, rfl, ?_⟩
        rw [Site.rts] at hrts
        rw [Site.LiesOn] at hlies
        rw [Site.isFinally]
        cases hhandler : s.handler with
        | finally_ pc' =>
            rw [hhandler] at hrts
            exact ⟨rfl, (List.cons.inj (List.cons.inj hrts).2).2.symm⟩
        | arm arm =>
            rw [hhandler] at hrts hlies
            dsimp only at hrts hlies
            rw [(List.cons.inj hrts).2, hsame] at hlies
            have hle := List.suffix_of_suffix_length_le hlies hmarker (Nat.le_refl _)
            cases (List.cons.inj (hle.eq_of_length rfl)).1
  · rintro ⟨s, hfind, hs, rfl⟩
    obtain ⟨a, hsuffix, hlies, hlanding⟩ := @landing_some D why code value fs s hfind
    refine ⟨a, activations s.rest, s.pc, hsuffix, ?_, ?_⟩
    · rw [Site.LiesOn] at hlies
      rw [Site.isFinally] at hs
      rw [Site.pc]
      cases hhandler : s.handler with
      | finally_ pc =>
          rw [hhandler] at hlies
          exact hlies
      | arm arm =>
          rw [hhandler] at hs
          cases hs
    · rw [hlanding, Site.rts]
      rw [Site.isFinally] at hs
      cases hhandler : s.handler with
      | finally_ pc => rfl
      | arm arm =>
          rw [hhandler] at hs
          cases hs

end

/-! The sites that an unwinding stops at are those of the error. -/

/-- In an unwinding with the reason and the code `c` it is the sites for the code of the error that
count. -/
def Counts (why : Reason) (c code : Var) (l : List (Site D)) : Prop :=
  ∀ s ∈ l, s.stops why c = (s.takes code || s.isFinally)

section

variable {why : Reason} {c code : Var} {pre l : List (Site D)} {s : Site D}

theorem counts_raise : Counts .raise code code l := by
  intro s _
  rw [Site.stops, Site.takes, Site.isFinally]
  cases s.handler <;> simp

theorem counts_uncaught (h : ∀ s ∈ l, s.takes code = false) : Counts .uncaught c code l := by
  intro s hs
  rw [h s hs, Site.stops, Site.isFinally]
  cases s.handler <;> rfl

theorem Site.takes_of_isFinally (h : s.isFinally = true) : s.takes code = false := by
  rw [Site.isFinally] at h
  rw [Site.takes]
  cases hhandler : s.handler with
  | arm arm =>
      rw [hhandler] at h
      cases h
  | finally_ pc => rfl

theorem Counts.quiet (h : Counts why c code (pre ++ l)) (hpre : ∀ x ∈ pre, x.stops why c = false) :
    target code (pre ++ l) = target code l ∧ finallies code (pre ++ l) = finallies code l := by
  induction pre with
  | nil => exact ⟨rfl, rfl⟩
  | cons x pre ih =>
      have hx := h x List.mem_cons_self
      rw [hpre x List.mem_cons_self, eq_comm, Bool.or_eq_false_iff] at hx
      obtain ⟨htarget, hfinallies⟩ := ih (fun y hy => h y (List.mem_cons_of_mem _ hy))
        fun y hy => hpre y (List.mem_cons_of_mem _ hy)
      rw [target, finallies] at *
      rw [List.cons_append, List.find?_cons_of_neg (by rw [hx.1]; exact Bool.false_ne_true),
        List.takeWhile_cons_of_pos (by rw [hx.1]; rfl), List.filter_cons_of_neg (by rw [hx.2]; exact Bool.false_ne_true)]
      exact ⟨htarget, hfinallies⟩

theorem target_finally (h : s.isFinally = true) :
    target code (s :: l) = target code l ∧ finallies code (s :: l) = s :: finallies code l := by
  have htakes : s.takes code = false := Site.takes_of_isFinally h
  rw [target, finallies, List.find?_cons_of_neg (by rw [htakes]; exact Bool.false_ne_true),
    List.takeWhile_cons_of_pos (by rw [htakes]; rfl), List.filter_cons_of_pos h]
  exact ⟨rfl, rfl⟩

theorem target_arm (h : s.takes code = true) : target code (s :: l) = some s ∧ finallies code (s :: l) = [] := by
  rw [target, finallies, List.find?_cons_of_pos h, List.takeWhile_cons_of_neg (by rw [h]; exact Bool.false_ne_true)]
  exact ⟨rfl, rfl⟩

theorem Counts.none (h : Counts why c code l) (hfind : l.find? (Site.stops why c) = none) :
    target code l = none ∧ finallies code l = [] := by
  have hquiet := @Counts.quiet D why c code l [] (by rwa [List.append_nil])
    fun x hx => Bool.not_eq_true _ ▸ List.find?_eq_none.mp hfind x hx
  rwa [List.append_nil] at hquiet

theorem Counts.arm (h : Counts why c code l) (hfind : l.find? (Site.stops why c) = some s) (hs : s.isFinally = false) :
    target code l = some s ∧ finallies code l = [] := by
  obtain ⟨hstops, pre, post, rfl, hpre⟩ := List.find?_eq_some_iff_append.mp hfind
  have htakes : s.takes code = true := by
    have hsees := h s (List.mem_append_right _ List.mem_cons_self)
    rwa [hstops, hs, Bool.or_false, eq_comm] at hsees
  obtain ⟨htarget, hfinallies⟩ := h.quiet fun x hx => by simpa using hpre x hx
  rw [htarget, hfinallies]
  exact target_arm htakes

end

/-- It stops at a `finally` part: this is the first one, and the others are those of the stack with
which it has been entered. -/
theorem Counts.finally_ {why : Reason} {c code : Var} {fs : List (Framed D)} {s : Site D}
    (h : Counts why c code (sites fs)) (hfind : (sites fs).find? (Site.stops why c) = some s) (hs : s.isFinally = true) :
    Counts why c code (sitesOf s.rest s.below ++ sites s.rest) ∧
      target code (sites fs) = target code (sitesOf s.rest s.below ++ sites s.rest) ∧
      finallies code (sites fs) = s :: finallies code (sitesOf s.rest s.below ++ sites s.rest) := by
  obtain ⟨pre, hsplit, hpre⟩ := sites_split hfind hs
  rw [hsplit] at h ⊢
  obtain ⟨htarget, hfinallies⟩ := h.quiet hpre
  obtain ⟨htarget', hfinallies'⟩ := @target_finally D code (sitesOf s.rest s.below ++ sites s.rest) s hs
  rw [htarget, hfinallies]
  exact ⟨fun x hx => h x (List.mem_append_right _ (List.mem_cons_of_mem _ hx)), htarget', hfinallies'⟩

/-- Control is at the arm that takes the error, or there is none and the task is aborted. -/
def Reached (why : Reason) (value : Var) (u : Unwound D) : Option (Site D) → Prop
  | some s => ∃ stack, u = .resumes stack ∧ s.Entered why value stack
  | none => u = .stops .aborted

/-- The `finally` parts on the way to the arm are entered, each once and in their order, and if each of
them comes to its end then the arm is. -/
structure Follows (why : Reason) (code value : Var) (l : List (Site D)) (es : List (List (StackedActivation D)))
    (e : Option (Unwound D)) : Prop where
  entered : List.Forall₂ (Site.Entered why value) ((finallies code l).take es.length) es
  arrives : ∀ u, e = some u → es.length = (finallies code l).length ∧ Reached why value u (target code l)

section

variable {callBiFunc : Invocation D → W → BiPackage D × W} {makeStackList : List (StackedActivation D) → Var}
  {unparseError : Error → Str} {why : Reason} {c code value : Var} {fs : List (Framed D)}

theorem Unwound.round_inj {u u' : Unwound D} {w w' : W} {result : Option Var}
    (h : u.round w result = u'.round w' result) : u = u' := by
  cases u <;> cases u' <;> cases h <;> rfl

def Site.after (s : Site D) (a : StackedActivation D) : List (Framed D) :=
  ⟨{ a with rts := flatItems s.below }, s.below, rfl⟩ :: s.rest

theorem rts_of_finally {s : Site D} (hs : s.isFinally = true) :
    s.rts why value = value :: .int why.num :: flatItems s.below := by
  rw [Site.isFinally] at hs
  rw [Site.rts]
  cases hhandler : s.handler with
  | finally_ pc => rfl
  | arm arm =>
      rw [hhandler] at hs
      cases hs

theorem landing_reached (hcounts : Counts why c code (sites fs))
    (hno : ∀ s, (sites fs).find? (Site.stops why c) = some s → s.isFinally = false) :
    finallies code (sites fs) = [] ∧ Reached why value (landing why c value fs) (target code (sites fs)) := by
  cases hfind : (sites fs).find? (Site.stops why c) with
  | none =>
      obtain ⟨htarget, hfinallies⟩ := hcounts.none hfind
      rw [htarget]
      exact ⟨hfinallies, landing_none hfind⟩
  | some s =>
      obtain ⟨htarget, hfinallies⟩ := hcounts.arm hfind (hno s hfind)
      obtain ⟨a, -, -, hlanding⟩ := @landing_some D why c value fs s hfind
      rw [htarget]
      exact ⟨hfinallies, _, hlanding, a, rfl⟩

theorem Course.follows (hwhy : why = .raise ∨ why = .uncaught) (hcode : codeOf why value = some c)
    {stack : List (StackedActivation D)} {u : Unwound D} {es : List (List (StackedActivation D))}
    {e : Option (Unwound D)} (hcourse : Course callBiFunc makeStackList unparseError why value stack u es e)
    (hstack : stack = activations fs) (hu : u = landing why c value fs) (hcounts : Counts why c code (sites fs)) :
    Follows why code value (sites fs) es e := by
  obtain ⟨hexit, hreturn⟩ := of_raised hwhy
  induction hcourse generalizing fs with
  | ends hno =>
      have hother : ∀ s, (sites fs).find? (Site.stops why c) = some s → s.isFinally = false := by
        intro s hfind
        by_contra hs
        rw [Bool.not_eq_false] at hs
        apply hno (flatItems s.below)
        rw [hstack, hu]
        exact entersFinally_iff.mpr ⟨s, hfind, hs, rfl⟩
      obtain ⟨hfinallies, hreached⟩ := @landing_reached D why c code value fs hcounts hother
      refine ⟨.nil, fun u' hu' => ?_⟩
      rw [hfinallies, ← Option.some.inj hu', hu]
      exact ⟨rfl, hreached⟩
  | left henters =>
      rw [hstack, hu] at henters
      obtain ⟨s, hfind, hs, -⟩ := entersFinally_iff.mp henters
      obtain ⟨a, -, -, hlanding⟩ := @landing_some D why c value fs s hfind
      obtain ⟨-, -, hfinallies⟩ := hcounts.finally_ hfind hs
      constructor
      · rw [hfinallies]
        exact .cons ⟨a, Unwound.resumes.inj (hu.trans hlanding)⟩ .nil
      · intro u' hu'
        cases hu'
  | @on stack rest a a' below fuel w w' result u es e henters hbody hcontinue hcourse ih =>
      rw [hstack, hu] at henters
      obtain ⟨s, hfind, hs, rfl⟩ := entersFinally_iff.mp henters
      obtain ⟨a₀, -, -, hlanding⟩ := @landing_some D why c value fs s hfind
      obtain ⟨hcounts', htarget, hfinallies⟩ := hcounts.finally_ hfind hs
      obtain ⟨ha, rfl⟩ := List.cons.inj (Unwound.resumes.inj (hu.trans hlanding))
      have hrts : a'.rts = value :: .int why.num :: flatItems s.below := by
        rw [hbody, ha, ← rts_of_finally hs]
      rw [continue_eq hwhy hrts] at hcontinue
      obtain ⟨⟨u', w₁⟩, hunwound, hround⟩ := Option.map_eq_some_iff.mp hcontinue
      obtain rfl := Unwound.round_inj hround
      have hlands : u' = landing why c value (s.after a') := unwindStack_lands hcode hexit hreturn hunwound
      have hsites : Counts why c code (sites (s.after a')) := hcounts'
      obtain ⟨hentered, harrives⟩ := ih rfl hlands hsites
      change List.Forall₂ _ ((finallies code (sitesOf s.rest s.below ++ sites s.rest)).take es.length) es at hentered
      refine ⟨?_, fun u'' hu'' => ?_⟩
      · rw [hfinallies]
        exact .cons ⟨a₀, by rw [ha]⟩ hentered
      · obtain ⟨hlength, hreached⟩ := harrives u'' hu''
        rw [hfinallies, htarget]
        exact ⟨congrArg (· + 1) hlength, hreached⟩

theorem exists_course (hends : BuiltinsEnd callBiFunc) (hwhy : why = .raise ∨ why = .uncaught)
    (hcode : codeOf why value = some c) (hfs : fs ≠ []) (hcounts : Counts why c code (sites fs)) (w : W) :
    ∃ es u, Course callBiFunc makeStackList unparseError why value (activations fs) (landing why c value fs) es
      (some u) := by
  obtain ⟨hexit, hreturn⟩ := of_raised hwhy
  generalize hl : finallies code (sites fs) = l
  induction l generalizing fs with
  | nil =>
      refine ⟨[], _, .ends fun below henters => ?_⟩
      obtain ⟨s, hfind, hs, -⟩ := entersFinally_iff.mp henters
      rw [(hcounts.finally_ hfind hs).2.2] at hl
      cases hl
  | cons s₀ l ih =>
      by_cases hno : ∀ s, (sites fs).find? (Site.stops why c) = some s → s.isFinally = false
      · rw [(@landing_reached D why c code value fs hcounts hno).1] at hl
        cases hl
      · push Not at hno
        obtain ⟨s, hfind, hs⟩ := hno
        rw [ne_eq, Bool.not_eq_false] at hs
        obtain ⟨hcounts', -, hfinallies⟩ := hcounts.finally_ hfind hs
        obtain ⟨a, -, -, hlanding⟩ := @landing_some D why c value fs s hfind
        have henters : EntersFinally why value (activations fs) (landing why c value fs) (flatItems s.below) :=
          entersFinally_iff.mpr ⟨s, hfind, hs, rfl⟩
        let after : List (Framed D) := s.after { a with pc := s.pc, rts := s.rts why value }
        obtain ⟨N, w', hreturns⟩ : ∃ N w', ∀ fuel, N ≤ fuel →
            (unwindStack callBiFunc makeStackList fuel (activations after) why value w).2 =
              some (landing why c value after, w') :=
          unwindStack_returns hends hcode hexit hreturn (List.cons_ne_nil _ _) w
        rw [hfinallies] at hl
        obtain ⟨es, u, hcourse⟩ : ∃ es u, Course callBiFunc makeStackList unparseError why value (activations after)
            (landing why c value after) es (some u) :=
          ih (List.cons_ne_nil _ _) hcounts' (List.cons.inj hl).2
        have hcontinue : Instruction.execute callBiFunc makeStackList unparseError N .continue_
            ⟨{ a with pc := s.pc, rts := s.rts why value } :: activations s.rest, w, none⟩ =
              some ((landing why c value after).round w' none) := by
          rw [continue_eq hwhy (rts_of_finally hs)]
          exact congrArg (Option.map _) (hreturns N (Nat.le_refl N))
        rw [hlanding] at henters ⊢
        exact ⟨_, u, .on henters rfl hcontinue hcourse⟩

end

/-! An error is raised. -/

/-- What becomes of an error with the reason and the value that `raise_error` unwinds the stack with. It
is uncaught just if no arm takes it. The activation that is announced is that of the first arm that
does, and control gets there at once if no `finally` part is before it; else these are entered one
after the other, each with the reason and the value that the unwinding then goes on with. -/
structure RaiseFollowed (callBiFunc : Invocation D → W → BiPackage D × W)
    (makeStackList : List (StackedActivation D) → Var) (unparseError : Error → Str) (fs : List (Framed D)) (code : Var)
    (why : Reason) (value : Var) : Prop where
  caught : why = .raise ↔ ∃ s ∈ sites fs, s.takes code = true
  uncaught : why = .uncaught ↔ ∀ s ∈ sites fs, s.takes code = false
  announced : findHandlerActiv code (activations fs) = (target code (sites fs)).map (Site.depth fs)
  direct : finallies code (sites fs) = [] → ∀ fuel w u w',
    (unwindStack callBiFunc makeStackList fuel (activations fs) why value w).2 = some (u, w') →
      match target code (sites fs) with
      | some s => ∃ a, a :: activations s.rest <:+ activations fs ∧
          u = .resumes ({ a with pc := s.pc, rts := s.rts why value } :: activations s.rest)
      | none => u = .stops .aborted
  follows : ∀ fuel w u w',
    (unwindStack callBiFunc makeStackList fuel (activations fs) why value w).2 = some (u, w') →
      ∀ es e, Course callBiFunc makeStackList unparseError why value (activations fs) u es e →
        Follows why code value (sites fs) es e
  ends : ∀ w, ∃ fuel u w' es u',
    (unwindStack callBiFunc makeStackList fuel (activations fs) why value w).2 = some (u, w') ∧
      Course callBiFunc makeStackList unparseError why value (activations fs) u es (some u')

section

variable {callBiFunc : Invocation D → W → BiPackage D × W} {makeStackList : List (StackedActivation D) → Var}
  {unparseError : Error → Str} {why : Reason} {c code value : Var} {fs : List (Framed D)}

theorem target_eq_none_iff {l : List (Site D)} : target code l = none ↔ ∀ s ∈ l, s.takes code = false := by
  rw [target, List.find?_eq_none]
  simp only [Bool.not_eq_true]

theorem raised_spec (msg : Str) (v : Var) :
    (∃ s ∈ sites fs, s.takes code = true) ∧ (raised makeStackList (activations fs) code msg v).1 = .raise ∧
        codeOf .raise (raised makeStackList (activations fs) code msg v).2 = some code ∨
      (∀ s ∈ sites fs, s.takes code = false) ∧
        (raised makeStackList (activations fs) code msg v).1 = .uncaught := by
  rw [raised, findHandlerActiv_eq]
  cases htarget : target code (sites fs) with
  | some s => exact .inl ⟨⟨s, List.mem_of_find?_eq_some htarget, List.find?_some htarget⟩, rfl, rfl⟩
  | none => exact .inr ⟨target_eq_none_iff.mp htarget, rfl⟩

theorem landing_direct (hcounts : Counts why c code (sites fs)) (hdirect : finallies code (sites fs) = []) :
    match target code (sites fs) with
    | some s => ∃ a, a :: activations s.rest <:+ activations fs ∧
        landing why c value fs = .resumes ({ a with pc := s.pc, rts := s.rts why value } :: activations s.rest)
    | none => landing why c value fs = .stops .aborted := by
  cases hfind : (sites fs).find? (Site.stops why c) with
  | none =>
      rw [(hcounts.none hfind).1]
      exact landing_none hfind
  | some s =>
      have hs : s.isFinally = false := by
        by_contra hs
        rw [(hcounts.finally_ hfind (Bool.not_eq_false _ ▸ hs)).2.2] at hdirect
        cases hdirect
      obtain ⟨a, hsuffix, -, hlanding⟩ := @landing_some D why c value fs s hfind
      rw [(hcounts.arm hfind hs).1]
      exact ⟨a, hsuffix, hlanding⟩

theorem followed (hends : BuiltinsEnd callBiFunc) (hwhy : why = .raise ∨ why = .uncaught)
    (hcode : codeOf why value = some c) (hfs : fs ≠ []) (hcounts : Counts why c code (sites fs))
    (hcaught : why = .raise ↔ ∃ s ∈ sites fs, s.takes code = true)
    (huncaught : why = .uncaught ↔ ∀ s ∈ sites fs, s.takes code = false) :
    RaiseFollowed callBiFunc makeStackList unparseError fs code why value where
  caught := hcaught
  uncaught := huncaught
  announced := findHandlerActiv_eq code fs
  direct := by
    intro hdirect fuel w u w' hunwound
    obtain ⟨hexit, hreturn⟩ := of_raised hwhy
    rw [unwindStack_lands hcode hexit hreturn hunwound]
    exact landing_direct hcounts hdirect
  follows := by
    intro fuel w u w' hunwound es e hcourse
    obtain ⟨hexit, hreturn⟩ := of_raised hwhy
    exact hcourse.follows hwhy hcode rfl (unwindStack_lands hcode hexit hreturn hunwound) hcounts
  ends := by
    intro w
    obtain ⟨hexit, hreturn⟩ := of_raised hwhy
    obtain ⟨N, w', hreturns⟩ := unwindStack_returns hends hcode hexit hreturn hfs w
    obtain ⟨es, u', hcourse⟩ := exists_course hends hwhy hcode hfs hcounts w
    exact ⟨N, _, w', es, u', hreturns N (Nat.le_refl N), hcourse⟩

end

/-- Every error that is raised over every stack of activations goes to the innermost arm that takes it,
through the `finally` parts before that. -/
theorem raise_followed (callBiFunc : Invocation D → W → BiPackage D × W)
    (makeStackList : List (StackedActivation D) → Var) (unparseError : Error → Str) (hends : BuiltinsEnd callBiFunc)
    (fs : List (Framed D)) (hfs : fs ≠ []) (code : Var) (msg : Str) (v : Var) :
    RaiseFollowed callBiFunc makeStackList unparseError fs code
      (raised makeStackList (activations fs) code msg v).1 (raised makeStackList (activations fs) code msg v).2 := by
  obtain ⟨⟨s, hs, htakes⟩, hwhy, hcode⟩ | ⟨hnone, hwhy⟩ := @raised_spec D makeStackList code fs msg v
  · rw [hwhy]
    apply followed hends (.inl rfl) hcode hfs counts_raise
    · exact ⟨fun _ => ⟨s, hs, htakes⟩, fun _ => rfl⟩
    · exact ⟨fun h => Reason.noConfusion h, fun h => Bool.noConfusion ((h s hs).symm.trans htakes)⟩
  · rw [hwhy]
    apply followed hends (.inr rfl) rfl hfs (counts_uncaught hnone)
    · exact ⟨fun h => Reason.noConfusion h, fun ⟨s, hs, htakes⟩ => Bool.noConfusion ((hnone s hs).symm.trans htakes)⟩
    · exact ⟨fun _ => hnone, fun _ => rfl⟩

/-- A verb with a `finally` part, called inside a `try` for division by zero. -/
def guardedCall : List (Framed Unit) :=
  [⟨⟨⟨8, [.finallyMarker 4], fun _ => .none, true⟩, 2, none⟩, [.finally_ 4], rfl⟩,
   ⟨⟨⟨9, [.catchMarker 1, .int 6, .list [.err .eDiv]], fun _ => .none, true⟩, 3, none⟩,
    [.except [⟨.list [.err .eDiv], 6, rfl⟩]], rfl⟩]

theorem builtinsEnd_ret : BuiltinsEnd (fun (_ : Invocation Unit) (w : Unit) => (.ret zero, w)) := by
  intro caller why a bi w
  exact ⟨1, (), rfl⟩

theorem guardedCall_followed :
    findHandlerActiv (.err .eDiv) (activations guardedCall) = some 1 ∧
      (finallies (.err .eDiv) (sites guardedCall)).length = 1 ∧
      RaiseFollowed (fun (_ : Invocation Unit) (w : Unit) => (.ret zero, w)) (fun _ => zero) (fun _ => []) guardedCall
        (.err .eDiv) .raise (.list [.err .eDiv, .str [], zero, zero]) :=
  ⟨rfl, rfl, raise_followed (fun (_ : Invocation Unit) (w : Unit) => (.ret zero, w)) (fun _ => zero) (fun _ => [])
    builtinsEnd_ret guardedCall (List.cons_ne_nil _ _) (.err .eDiv) [] zero⟩

end LambdaMoo
