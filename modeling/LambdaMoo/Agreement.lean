import Mathlib.Data.List.Nodup
import LambdaMoo.QueueChanges

/-! What connections and task queues hold of each other: the player's number is kept on
both sides. -/
namespace LambdaMoo

def Key.renamed (nhandle : Nat) (newPlayer : Objid) (k : Key) : Key :=
  if k.nhandle = nhandle then { k with player := newPlayer } else k

variable {face : Nat → Option (Objid × Bool)} {keys : List Key} {k : Key} {nextHandle : Nat}
  {nextPlayer : Int} {q : Nat} {p : Objid} {c : Bool}

/-- Each queue shows its player and whether it is connected, each connection its key. -/
structure Agreement (face : Nat → Option (Objid × Bool)) (keys : List Key) (nextHandle : Nat)
    (nextPlayer : Int) : Prop where
  handles : (keys.map Key.nhandle).Nodup
  players : ∀ k ∈ keys, ∀ k' ∈ keys, k.player = k'.player → k = k'
  belongs : ∀ k ∈ keys, face k.tasks = some (k.player, true)
  connected : ∀ q p, face q = some (p, true) → ∃ k ∈ keys, k.tasks = q
  single : ∀ q q' p c c', face q = some (p, c) → face q' = some (p, c') → p ≠ nothing → q = q'
  unused : ∀ k ∈ keys, nextPlayer < k.player ∧ k.player ≠ nothing ∧ k.nhandle < nextHandle
  first : nextPlayer < nothing

namespace Agreement

theorem key_eq (h : Agreement face keys nextHandle nextPlayer) {k' : Key} (hk : k ∈ keys)
    (hk' : k' ∈ keys) (he : k.nhandle = k'.nhandle) : k = k' :=
  List.inj_on_of_nodup_map h.handles hk hk' he

theorem player_eq (h : Agreement face keys nextHandle nextPlayer) (hk : k ∈ keys)
    (hq : face k.tasks = some (p, c)) : p = k.player ∧ c = true := by
  have hb := h.belongs k hk
  simpa [hq] using hb

theorem created (h : Agreement face keys nextHandle nextPlayer) (hq : face q = none)
    (hl : ∀ x c, face x ≠ some (p, c)) :
    Agreement (Function.update face q (some (p, false))) keys nextHandle nextPlayer := by
  have hne : ∀ {x p' c'}, face x = some (p', c') → x ≠ q := by
    rintro x p' c' hx rfl
    cases hq.symm.trans hx
  refine { h with belongs := fun k hk => ?_, connected := fun x p' hx => ?_, single := ?_ }
  · have hb := h.belongs k hk
    rwa [Function.update_of_ne (hne hb)]
  · rw [Function.update_apply] at hx
    split at hx
    · cases hx
    · exact h.connected x p' hx
  · intro x x' p' c c' hx hx' hp
    rw [Function.update_apply] at hx hx'
    split at hx <;> split at hx'
    · simp_all
    · cases hx
      exact absurd hx' (hl x' c')
    · cases hx'
      exact absurd hx (hl x c)
    · exact h.single x x' p' c c' hx hx' hp

theorem freed (h : Agreement face keys nextHandle nextPlayer) (hq : face q = some (p, false)) :
    Agreement (Function.update face q none) keys nextHandle nextPlayer := by
  have hold : ∀ {x r}, Function.update face q none x = some r → face x = some r := by
    intro x r hx
    rw [Function.update_apply] at hx
    split at hx
    · cases hx
    · exact hx
  refine { h with belongs := fun k hk => ?_, connected := fun x p' hx => ?_, single := ?_ }
  · have hb := h.belongs k hk
    rw [Function.update_of_ne, hb]
    rintro rfl
    cases hq.symm.trans hb
  · exact h.connected x p' (hold hx)
  · exact fun x x' p' c c' hx hx' hp => h.single x x' p' c c' (hold hx) (hold hx') hp

theorem connect (h : Agreement face keys nextHandle nextPlayer) (hq : face q = some (nextPlayer, c)) :
    Agreement (Function.update face q (some (nextPlayer, true))) (⟨nextHandle, nextPlayer, q⟩ :: keys)
      (nextHandle + 1) (nextPlayer - 1) := by
  have hnext : ∀ k ∈ keys, k.player ≠ nextPlayer := fun k hk he =>
    Int.lt_irrefl nextPlayer (he ▸ (h.unused k hk).1)
  have hne : ∀ k ∈ keys, k.tasks ≠ q := by
    rintro k hk rfl
    exact hnext k hk (h.player_eq hk hq).1.symm
  constructor
  case handles =>
    refine List.nodup_cons.mpr ⟨?_, h.handles⟩
    intro hmem
    rw [List.mem_map] at hmem
    obtain ⟨k, hk, heq⟩ := hmem
    have hlt := (h.unused k hk).2.2
    rw [heq] at hlt
    exact Nat.lt_irrefl _ hlt
  case players =>
    intro k hk k' hk' he
    cases hk with
    | head =>
        cases hk' with
        | head => rfl
        | tail _ hk' => exact absurd he.symm (hnext k' hk')
    | tail _ hk =>
        cases hk' with
        | head => exact absurd he (hnext k hk)
        | tail _ hk' => exact h.players k hk k' hk' he
  case belongs =>
    intro k hk
    cases hk with
    | head => exact Function.update_self ..
    | tail _ hk =>
        rw [Function.update_of_ne (hne k hk)]
        exact h.belongs k hk
  case connected =>
    intro x p hx
    rw [Function.update_apply] at hx
    split at hx
    · next heq => exact ⟨_, .head keys, heq.symm⟩
    · have hold := h.connected x p hx
      exact hold.imp fun k hk => ⟨.tail _ hk.1, hk.2⟩
  case single =>
    have hold : ∀ {x p c'}, Function.update face q (some (nextPlayer, true)) x = some (p, c') →
        ∃ c'', face x = some (p, c'') := by
      intro x p c' hx
      rw [Function.update_apply] at hx
      split at hx
      · next heq =>
          cases hx
          exact ⟨c, heq ▸ hq⟩
      · exact ⟨c', hx⟩
    intro x x' p c₁ c₂ hx hx' hp
    exact h.single x x' p _ _ (hold hx).choose_spec (hold hx').choose_spec hp
  case unused =>
    intro k hk
    have hfirst := h.first
    cases hk with
    | head => exact ⟨Int.sub_one_lt_of_le (Int.le_refl _), Int.ne_of_lt h.first, Nat.lt_succ_self _⟩
    | tail _ hk =>
        have hu := h.unused k hk
        exact ⟨by lia, hu.2.1, Nat.lt_succ_of_lt hu.2.2⟩
  case first =>
    have hfirst := h.first
    lia

theorem disconnect (h : Agreement face keys nextHandle nextPlayer) (hk : k ∈ keys) :
    Agreement (Function.update face k.tasks (some (k.player, false)))
      (keys.filter fun k' => k'.nhandle ≠ k.nhandle) nextHandle nextPlayer := by
  have hmem : ∀ {k'}, k' ∈ keys.filter (fun k' => k'.nhandle ≠ k.nhandle) →
      k' ∈ keys ∧ k'.tasks ≠ k.tasks := by
    intro k' hk'
    rw [List.mem_filter, decide_eq_true_eq] at hk'
    refine ⟨hk'.1, fun heq => hk'.2 ?_⟩
    have hb := h.belongs k' hk'.1
    rw [heq] at hb
    rw [h.players k' hk'.1 k hk (h.player_eq hk hb).1]
  have hold : ∀ {x p c}, Function.update face k.tasks (some (k.player, false)) x = some (p, c) →
      ∃ c', face x = some (p, c') := by
    intro x p c hx
    rw [Function.update_apply] at hx
    split at hx
    · next heq =>
        cases hx
        exact ⟨true, heq ▸ h.belongs k hk⟩
    · exact ⟨c, hx⟩
  constructor
  case handles => exact h.handles.sublist (List.filter_sublist.map _)
  case players => exact fun k₁ h₁ k₂ h₂ he => h.players k₁ (hmem h₁).1 k₂ (hmem h₂).1 he
  case belongs =>
    intro k' hk'
    rw [Function.update_of_ne (hmem hk').2]
    exact h.belongs k' (hmem hk').1
  case connected =>
    intro x p hx
    rw [Function.update_apply] at hx
    split at hx
    · cases hx
    · next hne =>
        obtain ⟨k', hk', heq⟩ := h.connected x p hx
        refine ⟨k', List.mem_filter.mpr ⟨hk', ?_⟩, heq⟩
        rw [decide_eq_true_eq]
        exact fun he => hne (heq ▸ congrArg Key.tasks (h.key_eq hk' hk he))
  case single =>
    intro x x' p c c' hx hx' hp
    exact h.single x x' p _ _ (hold hx).choose_spec (hold hx').choose_spec hp
  case unused => exact fun k' hk' => h.unused k' (hmem hk').1
  case first => exact h.first

theorem retired (h : Agreement face keys nextHandle nextPlayer) (hq : face q = some (p, false)) :
    Agreement (Function.update face q (some (nothing, false))) keys nextHandle nextPlayer := by
  refine { h with belongs := fun k hk => ?_, connected := fun x p' hx => ?_, single := ?_ }
  · have hb := h.belongs k hk
    rw [Function.update_of_ne, hb]
    rintro rfl
    cases hq.symm.trans hb
  · rw [Function.update_apply] at hx
    split at hx
    · cases hx
    · exact h.connected x p' hx
  · intro x x' p' c c' hx hx' hp
    rw [Function.update_apply] at hx hx'
    split at hx
    · cases hx
      exact absurd rfl hp
    · split at hx'
      · cases hx'
        exact absurd rfl hp
      · exact h.single x x' p' c c' hx hx' hp

theorem renamed (h : Agreement face keys nextHandle nextPlayer) (hk : k ∈ keys) (hp : 0 ≤ p)
    (hl : ∀ x c, face x ≠ some (p, c)) :
    Agreement (Function.update face k.tasks (some (p, true))) (keys.map (Key.renamed k.nhandle p))
      nextHandle nextPlayer := by
  have hn : ∀ k', (Key.renamed k.nhandle p k').nhandle = k'.nhandle := fun k' => by
    unfold Key.renamed
    split <;> rfl
  have ht : ∀ k', (Key.renamed k.nhandle p k').tasks = k'.tasks := fun k' => by
    unfold Key.renamed
    split <;> rfl
  have hother : ∀ k' ∈ keys, k' ≠ k → Key.renamed k.nhandle p k' = k' ∧ k'.tasks ≠ k.tasks ∧ k'.player ≠ p := by
    intro k' hk' hne
    refine ⟨if_neg fun he => hne (h.key_eq hk' hk he), fun he => hne ?_, fun he => ?_⟩
    · have hb := h.belongs k' hk'
      rw [he] at hb
      exact h.players k' hk' k hk (h.player_eq hk hb).1
    · exact hl k'.tasks true (he ▸ h.belongs k' hk')
  have hself : (Key.renamed k.nhandle p k).player = p := by simp [Key.renamed]
  constructor
  case handles =>
    have hmap : (keys.map (Key.renamed k.nhandle p)).map Key.nhandle = keys.map Key.nhandle := by
      rw [List.map_map]
      exact List.map_congr_left fun k' _ => hn k'
    exact hmap ▸ h.handles
  case players =>
    intro k₁ h₁ k₂ h₂ he
    obtain ⟨k₁, g₁, rfl⟩ := List.mem_map.mp h₁
    obtain ⟨k₂, g₂, rfl⟩ := List.mem_map.mp h₂
    by_cases e₁ : k₁ = k <;> by_cases e₂ : k₂ = k
    · rw [e₁, e₂]
    · rw [e₁, hself, (hother k₂ g₂ e₂).1] at he
      exact absurd he.symm (hother k₂ g₂ e₂).2.2
    · rw [e₂, hself, (hother k₁ g₁ e₁).1] at he
      exact absurd he (hother k₁ g₁ e₁).2.2
    · rw [(hother k₁ g₁ e₁).1, (hother k₂ g₂ e₂).1] at he ⊢
      exact h.players k₁ g₁ k₂ g₂ he
  case belongs =>
    intro k' hmem
    obtain ⟨k', hk', rfl⟩ := List.mem_map.mp hmem
    rw [ht]
    by_cases he : k' = k
    · rw [he, Function.update_self, hself]
    · have ho := hother k' hk' he
      rw [Function.update_of_ne ho.2.1, ho.1]
      exact h.belongs k' hk'
  case connected =>
    intro x p' hx
    have hold : ∃ p'', face x = some (p'', true) := by
      rw [Function.update_apply] at hx
      split at hx
      · next heq => exact ⟨_, heq ▸ h.belongs k hk⟩
      · exact ⟨p', hx⟩
    obtain ⟨k', hk', heq⟩ := h.connected x _ hold.choose_spec
    exact ⟨_, List.mem_map_of_mem hk', (ht k').trans heq⟩
  case single =>
    intro x x' p' c c' hx hx' hp'
    rw [Function.update_apply] at hx hx'
    split at hx <;> split at hx'
    · simp_all
    · cases hx
      exact absurd hx' (hl x' c')
    · cases hx'
      exact absurd hx (hl x c)
    · exact h.single x x' p' c c' hx hx' hp'
  case unused =>
    intro k' hmem
    obtain ⟨k', hk', rfl⟩ := List.mem_map.mp hmem
    have hfirst := h.first
    rw [hn]
    by_cases he : k' = k
    · rw [he, hself]
      exact ⟨by unfold nothing at hfirst; lia, by unfold nothing; lia, (h.unused k hk).2.2⟩
    · rw [(hother k' hk' he).1]
      exact h.unused k' hk'
  case first => exact h.first

end Agreement
end LambdaMoo
