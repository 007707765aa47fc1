import BehaviorTree.Proofs.ReflectedMachine
import Mathlib.Data.List.Forall2

/-!
# Running in place with success and failure exchanged

What a reflected process gives in place is what the process gives, with its outcome turned over
(`Process.Formed.inPlace_reflects`). Its parallel nodes must have children: one without succeeds,
and has nothing to be turned over.
-/

namespace BehaviorTree

/-- Work left over that is the same but for the lines of the trace. -/
def Leftover.Quiets (work quieted : Leftover) : Prop :=
  ∀ world, quieted world.quiet = (work world).quiet

/-- A result in place, and the result turned over. -/
structure InPlace.Reflects (flip : Bool) (result reflected : InPlace) : Prop where
  outcome : reflected.outcome = result.outcome.flip flip
  completion : reflected.completion = result.completion
  leftovers : List.Forall₂ Leftover.Quiets result.leftovers reflected.leftovers
  world : reflected.world = result.world.quiet

namespace InPlace.Reflects

variable {flip : Bool} {result reflected : InPlace}

theorem prepend (h : Reflects flip result reflected) {leftovers leftovers' : List Leftover}
    (hleftovers : List.Forall₂ Leftover.Quiets leftovers leftovers') :
    Reflects flip (result.prepend leftovers) (reflected.prepend leftovers') :=
  ⟨h.outcome, h.completion, List.rel_append hleftovers h.leftovers, h.world⟩

theorem drain (h : Reflects flip result reflected) : reflected.drain = result.drain.quiet := by
  have hfold : ∀ {works quieted : List Leftover}, List.Forall₂ Leftover.Quiets works quieted →
      ∀ world : World, quieted.foldl (fun world work => work world) world.quiet
        = (works.foldl (fun world work => work world) world).quiet := by
    intro works quieted hworks
    induction hworks with
    | nil => exact fun _ => rfl
    | cons hwork _ ih =>
      intro world
      rw [List.foldl_cons, hwork, ih, List.foldl_cons]
  unfold InPlace.drain
  rw [h.world, hfold h.leftovers]

end InPlace.Reflects

namespace Process

/-- Children in place, and the children turned over. -/
theorem branchesInPlace_reflects (on : Bool) (policy : Policy) (total : Nat) :
    ∀ {children : List (Bool × Process)},
    (∀ child ∈ children, ∀ world : World,
      InPlace.Reflects on (child.2.inPlace world) ((child.2.reflect on on).inPlace world.quiet)) →
    ∀ (tally : Tally) (world : World),
    let result := branchesInPlace policy total tally children world
    let reflected := branchesInPlace (policy.reflect on) total (tally.reflect on)
      (reflectAll on children) world.quiet
    reflected.1 = result.1.reflect on ∧ List.Forall₂ Leftover.Quiets result.2.1 reflected.2.1
      ∧ reflected.2.2 = result.2.2.quiet
  | [], _, tally, world => by
    simp [reflectAll, branchesInPlace]
  | (waitForMe, child) :: rest, h, tally, world => by
    have hchild := h _ List.mem_cons_self
    have ih := branchesInPlace_reflects on policy total
      fun c hc => h c (List.mem_cons_of_mem _ hc)
    simp only [reflectAll, branchesInPlace, Tally.settled_reflect]
    by_cases hsettled : tally.settled policy
    · obtain ⟨htally, hleftovers, hworld⟩ := ih tally world
      simp only [if_pos hsettled]
      exact ⟨htally, .cons (fun world => (hchild world).drain) hleftovers, hworld⟩
    · have hresult := hchild world
      obtain ⟨htally, hleftovers, hworld⟩ := ih
        (tally.record policy total waitForMe (child.inPlace world).outcome)
        (child.inPlace world).world
      simp only [if_neg hsettled]
      rw [Tally.reflect_record, ← hresult.outcome, ← hresult.world] at htally hleftovers hworld
      exact ⟨htally, List.rel_append hresult.leftovers hleftovers, hworld⟩

theorem last_branchesInPlace (policy : Policy) (total : Nat) :
    ∀ (children : List (Bool × Process)) {tally : Tally} (world : World), tally.last.isSome →
    (branchesInPlace policy total tally children world).1.last.isSome
  | [], tally, world, h => h
  | (waitForMe, child) :: rest, tally, world, h => by
    simp only [branchesInPlace]
    split
    · exact last_branchesInPlace policy total rest world h
    · exact last_branchesInPlace policy total rest _ (by rw [Tally.last_record]; rfl)

/-- A parallel node with children takes in the outcome of the first at least. -/
theorem last_branchesInPlace_of_ne_nil (policy : Policy) (total waitingOn : Nat)
    {children : List (Bool × Process)} (hne : children ≠ []) (world : World) :
    (branchesInPlace policy total { waitingOn } children world).1.last.isSome := by
  obtain ⟨⟨waitForMe, child⟩, rest, rfl⟩ := List.exists_cons_of_ne_nil hne
  have hsettled : ¬({ waitingOn } : Tally).settled policy := by simp [Tally.settled]
  simp only [branchesInPlace, if_neg hsettled]
  exact last_branchesInPlace policy total rest _ (by rw [Tally.last_record]; rfl)

theorem Formed.inPlace_reflects {wide : Bool} {process : Process} (h : process.Formed wide)
    (on : Bool) : ∀ (flip : Bool) (world : World),
    InPlace.Reflects flip (process.inPlace world)
      ((process.reflect on flip).inPlace world.quiet) := by
  induction h with
  | done outcome => exact fun flip world => ⟨rfl, rfl, .nil, rfl⟩
  | ask scope request h ih =>
    intro flip world
    rcases hask : world.ask scope request with ⟨answer, later⟩
    simp only [reflect, inPlace, World.quiet_ask, hask]
    exact ih answer flip later
  | emit event h ih =>
    intro flip world
    have hworld := world.quiet_emit event
    have hnext := ih flip (world.emit event)
    rw [hworld] at hnext
    simp only [reflect]
    split
    · rename_i htrace
      rw [if_pos htrace] at hnext
      exact hnext
    · rename_i htrace
      rw [if_neg htrace] at hnext
      exact hnext
  | sleep ms h ih =>
    intro flip world
    simp only [reflect, inPlace]
    exact ih flip world
  | start hwork h ihwork ih =>
    intro flip world
    simp only [reflect, inPlace]
    have hwork := ihwork false world
    rw [hwork.world]
    exact (ih flip _).prepend hwork.leftovers
  | await hwork h ihwork ih =>
    intro flip world
    simp only [reflect, inPlace]
    have hwork := ihwork false world
    rw [hwork.world, hwork.completion]
    exact (ih _ flip _).prepend hwork.leftovers
  | complete outcome h ih =>
    intro flip world
    simp only [reflect, inPlace]
    have hnext := ih flip world
    exact ⟨hnext.outcome, rfl, hnext.leftovers, hnext.world⟩
  | parallel policy input hwide hne hchildren h ihchildren ih =>
    rename_i children next
    intro flip world
    have hlast := last_branchesInPlace_of_ne_nil policy children.length (children.countP (·.1)) hne
      world
    obtain ⟨htally, hleftovers, hworld⟩ := branchesInPlace_reflects on policy children.length
      (fun child hchild => ihchildren child hchild on) { waitingOn := children.countP (·.1) } world
    rw [Tally.reflect_start] at htally hleftovers hworld
    simp only [reflect, inPlace, length_reflectAll, countP_reflectAll]
    rw [htally, hworld, Tally.result_reflect on hlast, Outcome.flip_flip]
    exact (ih _ flip _).prepend hleftovers

end Process

end BehaviorTree
