import BehaviorTree.Proofs.MendedMachine

/-!
# Mishaps in place

In place too a process and the same one with its actions mended come to the same outcome, and leave
the same world but for notices, as does what they leave over (`Process.Mends.inPlace`). Work in the
background reports the same in the end: it has used its completion handle, or has let go of it and
fails with what becomes of that.
-/

namespace BehaviorTree

/-- Worlds that are the same but for notices. -/
def World.SameHeard (world world' : World) : Prop :=
  world'.muffled = world.muffled

/-- What comes of processes that do the same but for mishaps. -/
structure InPlace.Mends (aside : Bool) (result result' : InPlace) : Prop where
  alike : aside = false →
    result'.outcome = result.outcome ∧ result'.completion = result.completion
  completion : Handle.Mends true (result.completion.getD none) (result'.completion.getD none)
  leftovers : List.Forall₂ (Leftover.InStep World.SameHeard) result.leftovers result'.leftovers
  world : result.world.SameHeard result'.world

namespace InPlace.Mends

variable {aside : Bool} {result result' : InPlace}

theorem inStep (h : result.Mends false result') : result.InStep World.SameHeard result' :=
  ⟨(h.alike rfl).1, (h.alike rfl).2, h.leftovers, h.world⟩

theorem prepend (h : result.Mends aside result') {leftovers leftovers' : List Leftover}
    (hleftovers : List.Forall₂ (Leftover.InStep World.SameHeard) leftovers leftovers') :
    (result.prepend leftovers).Mends aside (result'.prepend leftovers') :=
  ⟨h.alike, h.completion, List.rel_append hleftovers h.leftovers, h.world⟩

theorem completedBefore (h : result.Mends aside result') {used used' : Option Outcome}
    (hused : Handle.Mends aside used used') :
    (result.completedBefore used).Mends aside (result'.completedBefore used') := by
  refine ⟨fun haside => ⟨(h.alike haside).1, ?_⟩, ?_, h.leftovers, h.world⟩
  · obtain hsame | ⟨htrue, -⟩ := hused
    · exact congrArg some hsame
    · rw [haside] at htrue
      cases htrue
  · obtain hsame | ⟨-, hlets⟩ := hused
    · exact .inl hsame
    · exact .inr ⟨rfl, hlets⟩

end InPlace.Mends

/-- Processes that do the same but for mishaps come to the same outcome in place. -/
theorem Process.Mends.inPlace {aside : Bool} {process process' : Process}
    (h : process.Mends aside process') : ∀ {world world' : World}, world.SameHeard world' →
      (process.inPlace world).Mends aside (process'.inPlace world') := by
  induction h with
  | done outcome => exact fun hworld => ⟨fun _ => ⟨rfl, rfl⟩, .inl rfl, .nil, hworld⟩
  | ended outcome outcome' => exact fun hworld => ⟨nofun, .inl rfl, .nil, hworld⟩
  | lets outcome outcome' => exact fun hworld => ⟨nofun, .inr ⟨rfl, rfl, rfl⟩, .nil, hworld⟩
  | ask scope request _ ih =>
    intro world world' hworld
    obtain ⟨hanswer, hlater⟩ := World.ask_of_muffled hworld scope request
    simp only [Process.inPlace]
    rw [hanswer]
    exact ih _ hlater
  | notice event hnotice _ ih =>
    intro world world' hworld
    refine ih (?_ : World.muffled _ = World.muffled _)
    rw [World.muffled_emit, if_pos hnotice]
    exact hworld
  | emit event _ ih => exact fun hworld => ih (World.muffled_emit_eq hworld event)
  | sleep ms _ ih => exact fun hworld => ih hworld
  | start _ _ ihwork ih =>
    exact fun hworld => (ih (ihwork hworld).world).prepend (ihwork hworld).leftovers
  | await _ _ ihwork ih =>
    intro world world' hworld
    have hwork := ihwork hworld
    exact (ih _ _ hwork.completion hwork.world).prepend hwork.leftovers
  | complete hused _ ih => exact fun hworld => (ih hworld).completedBefore hused
  | @parallel aside policy input children children' next next' hflags hchildren _ ihchildren ih =>
    intro world world' hworld
    have hall := Process.forall₂_of_children
      (R := fun process process' => ∀ {world world' : World}, world.SameHeard world' →
        (process.inPlace world).InStep World.SameHeard (process'.inPlace world')) hflags
      fun i child child' hi hi' _ _ hworld => (ihchildren i child child' hi hi' hworld).inStep
    have hcount : children'.countP (·.1) = children.countP (·.1) := by
      have hcount := congrArg (List.countP id) hflags
      rwa [List.countP_map, List.countP_map] at hcount
    obtain ⟨htally, hleftovers, hlater⟩ := branchesInPlace_inStep policy children.length hall
      { waitingOn := children.countP (·.1) } hworld
    simp only [Process.inPlace, ← hall.length_eq, hcount, htally]
    exact (ih _ hlater).prepend hleftovers

end BehaviorTree
