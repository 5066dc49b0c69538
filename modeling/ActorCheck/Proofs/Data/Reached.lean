import ActorCheck.Proofs.Data.Along
import ActorCheck.Proofs.Flow.Acyclic

/-!
# What Runs Reach

A run along a relation without loops searches in depth, and the order in which it finds things is
part of what it answers. Which results there are does not depend on the order. A run gets from one
location and state to another if the latter is among the alternatives of the former, and so on:
`Reaches` is that relation, and a run answers with all states that it reaches at locations where it
finishes. It fails exactly if it reaches a place whose alternatives cannot be worked out.

Both hold for a depth that no walk exceeds. In an acyclic relation the number of locations is such
a depth.

## Main definitions

* `Runner.Goes`, `Runner.Reaches`: How a run gets on.
* `Runner.Fails`: The alternatives of a place cannot be worked out.

## Theorems

* `Runner.fails_of_runFrom`: A run that fails has met a place that fails.
* `Runner.mem_runFrom`: The results of a run.
* `Runner.runFrom_error_iff`: The failures of a run.
* `Runner.runAlong_error_iff`, `Runner.mem_runAlong`: The same for acyclic relations.
-/

namespace ActorCheck

namespace Runner

variable {σ : Type} (r : Runner σ)

/-- A run goes on from one location and state to another. -/
def Goes (g : Flow) (x y : LocationId × σ) : Prop :=
  ∃ found, r.alternatives g x.1 x.2 = .ok found ∧ y ∈ found

/-- A run gets from one location and state to another. -/
abbrev Reaches (g : Flow) : LocationId × σ → LocationId × σ → Prop :=
  Relation.ReflTransGen (r.Goes g)

/-- The alternatives of a location and a state cannot be worked out. -/
def Fails (g : Flow) (x : LocationId × σ) : Prop := ∃ e, r.alternatives g x.1 x.2 = .error e

variable (g : Relation)

/-- No walk from behind an edge is as long as those from before it. -/
theorem length_of_goes (depth : Nat) (x y : LocationId × σ)
    (h : ∀ ops m, g.Walk x.1 ops m → ops.length < depth + 1) (hgoes : r.Goes g.toFlow x y) :
    ∀ ops m, g.Walk y.1 ops m → ops.length < depth := by
  intro ops m hwalk
  rcases hgoes with ⟨found, hfound, hy⟩
  rcases r.edge_of_alternatives g.toFlow x.1 x.2 found hfound y hy with ⟨op, _, hedge, _⟩
  have hlonger := h (op :: ops) m (.cons hedge hwalk)
  rw [List.length_cons] at hlonger
  omega

/-- A run that fails has met a place that fails. -/
theorem fails_of_runFrom (depth : Nat) (l : LocationId) (s : σ)
    (hdepth : ∀ ops m, g.Walk l ops m → ops.length < depth) (e : AnalysisError)
    (h : r.runFrom g depth l s = .error e) :
    ∃ x, r.Reaches g.toFlow (l, s) x ∧ r.Fails g.toFlow x := by
  -- By induction on the depth, which is larger than any walk from here. So it does not run out
  -- before the run meets a failure.
  induction depth generalizing l s e with
  | zero => exact absurd (hdepth [] l (.nil l)) (Nat.lt_irrefl 0)
  | succ depth ih =>
      unfold runFrom at h
      cases hnext : r.alternatives g.toFlow l s with
      | error e' => exact ⟨(l, s), .refl, e', hnext⟩
      | ok next =>
          rw [hnext] at h
          cases hlater : next.reverse.mapM fun p => r.runFrom g depth p.1 p.2 with
          | error e' =>
              -- The later runs are done one after the other, and one of them failed.
              rcases except_mapM_error _ _ _ hlater with ⟨p, hp, hfails⟩
              have hgoes : r.Goes g.toFlow (l, s) p := ⟨next, hnext, List.mem_reverse.mp hp⟩
              rcases ih p.1 p.2 (r.length_of_goes g depth (l, s) p hdepth hgoes) e' hfails with
                ⟨x, hx, hstuck⟩
              exact ⟨x, .head hgoes hx, hstuck⟩
          | ok later =>
              change (next.reverse.mapM (fun p => r.runFrom g depth p.1 p.2) >>= _) = _ at h
              rw [hlater] at h
              cases h

/-- The results of a run that succeeds. Nothing that it reaches fails, and it answers with the
    states at all locations where it finishes. -/
theorem mem_runFrom (depth : Nat) (l : LocationId) (s : σ) (found : List (σ × Bool))
    (h : r.runFrom g depth l s = .ok found) :
    (∀ x, r.Reaches g.toFlow (l, s) x → ¬ r.Fails g.toFlow x)
      ∧ ∀ t b, (t, b) ∈ found ↔ ∃ m, r.Reaches g.toFlow (l, s) (m, t)
        ∧ g.finishesAt m = true ∧ b = g.exits.contains m := by
  -- By induction on the depth. A run that succeeds has not run out of it, so nothing is asked of
  -- walks.
  induction depth generalizing l s found with
  | zero => cases h
  | succ depth ih =>
      rcases (except_bind_ok _ _ _).mp h with ⟨next, hnext, h⟩
      rcases (except_bind_ok _ _ _).mp h with ⟨later, hlater, h⟩
      have hresults := (except_mapM_ok _ _ _).mp hlater
      -- Whatever is reached lies right here or behind one of the alternatives.
      have hsplit : ∀ x, r.Reaches g.toFlow (l, s) x → x = (l, s)
          ∨ ∃ p ∈ next, r.Reaches g.toFlow p x := by
        intro x hx
        rcases Relation.ReflTransGen.cases_head hx with rfl | ⟨p, ⟨found', hfound', hp⟩, hrest⟩
        · exact Or.inl rfl
        · rw [hnext] at hfound'
          cases hfound'
          exact Or.inr ⟨p, hp, hrest⟩
      have hbehind : ∀ p ∈ next, ∃ results ∈ later, r.runFrom g depth p.1 p.2 = .ok results :=
        fun p hp => mem_of_forall₂_left _ _ _ hresults p (List.mem_reverse.mpr hp)
      refine ⟨fun x hx => ?_, fun t b => ?_⟩
      · rcases hsplit x hx with rfl | ⟨p, hp, hrest⟩
        · rintro ⟨e, hfails⟩
          rw [hnext] at hfails
          cases hfails
        · rcases hbehind p hp with ⟨results, _, hone⟩
          exact (ih p.1 p.2 results hone).1 x hrest
      · rw [← (except_pure_ok _ _).mp h, List.mem_append, List.mem_flatten]
        constructor
        -- A result comes from finishing here or from one of the later runs.
        · rintro (hhere | ⟨results, hin, hmem⟩)
          · unfold finished at hhere
            split at hhere
            next hfinishes =>
              cases List.mem_singleton.mp hhere
              exact ⟨l, .refl, hfinishes, rfl⟩
            next => cases hhere
          · rcases mem_of_forall₂_right _ _ _ hresults results hin with ⟨p, hp, hone⟩
            rcases ((ih p.1 p.2 results hone).2 t b).mp hmem with ⟨m, hm, hfinishes⟩
            exact ⟨m, .head ⟨next, hnext, List.mem_reverse.mp hp⟩ hm, hfinishes⟩
        · rintro ⟨m, hm, hfinishes, rfl⟩
          rcases hsplit _ hm with heq | ⟨p, hp, hrest⟩
          · cases heq
            refine Or.inl ?_
            unfold finished
            rw [if_pos hfinishes]
            exact List.mem_singleton_self _
          · rcases hbehind p hp with ⟨results, hin, hone⟩
            exact Or.inr ⟨results, hin,
              ((ih p.1 p.2 results hone).2 t _).mpr ⟨m, hrest, hfinishes, rfl⟩⟩

/-- A run that is granted enough depth fails exactly if it reaches a place that fails. -/
theorem runFrom_error_iff (depth : Nat) (l : LocationId) (s : σ)
    (hdepth : ∀ ops m, g.Walk l ops m → ops.length < depth) :
    (∃ e, r.runFrom g depth l s = .error e)
      ↔ ∃ x, r.Reaches g.toFlow (l, s) x ∧ r.Fails g.toFlow x := by
  constructor
  · rintro ⟨e, he⟩
    exact r.fails_of_runFrom g depth l s hdepth e he
  · rintro ⟨x, hx, hfails⟩
    -- If the run succeeded nothing that it reaches would fail.
    cases hrun : r.runFrom g depth l s with
    | error e => exact ⟨e, rfl⟩
    | ok found => exact absurd hfails ((r.mem_runFrom g depth l s found hrun).1 x hx)

/-- A run along a relation that is not refused. -/
theorem runAlong_of_accepted (hloops : g.hasLoops = false) (start : LocationId) (s : σ) :
    r.runAlong g start s = r.runFrom g (g.locations.size + patience) start s := by
  unfold runAlong
  rw [hloops, if_neg Bool.false_ne_true]

section Acyclic

variable (hacyclic : g.Acyclic) (hwell : g.WellFormed) (start : LocationId)
  (hstart : start ∈ g.locations) (s : σ)

include hacyclic

theorem runAlong_eq : r.runAlong g start s = r.runFrom g (g.locations.size + patience) start s :=
  r.runAlong_of_accepted g (g.hasLoops_of_acyclic hacyclic) start s

/-- The results of a run along an acyclic relation. -/
theorem mem_runAlong (found : List (σ × Bool)) (h : r.runAlong g start s = .ok found) (t : σ)
    (b : Bool) : (t, b) ∈ found ↔ ∃ m, r.Reaches g.toFlow (start, s) (m, t)
      ∧ g.finishesAt m = true ∧ b = g.exits.contains m := by
  rw [r.runAlong_eq g hacyclic] at h
  exact (r.mem_runFrom g _ start s found h).2 t b

include hwell hstart

/-- A run along an acyclic relation fails exactly if it reaches a place that fails. -/
theorem runAlong_error_iff : (∃ e, r.runAlong g start s = .error e)
    ↔ ∃ x, r.Reaches g.toFlow (start, s) x ∧ r.Fails g.toFlow x := by
  rw [r.runAlong_eq g hacyclic]
  refine r.runFrom_error_iff g _ start s fun ops m hwalk => ?_
  have hshort := g.length_of_walk start m ops hwell hstart (g.acyclicFrom_of_acyclic hacyclic start)
    hwalk
  omega

end Acyclic

end Runner

end ActorCheck
