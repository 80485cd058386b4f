import Mathlib.Data.Finset.Lattice.Fold

namespace Exchange
set_option autoImplicit true

variable {ι M : Type*} [DecidableEq ι]

section Join

variable [SemilatticeSup M]

def step (v : ι → M) (e : ι × ι) : ι → M := Function.update v e.2 (v e.2 ⊔ v e.1)

def run (v : ι → M) (es : List (ι × ι)) : ι → M := es.foldl step v

end Join

/-- The replicas that each replica has heard of: its own, and what it has been told. -/
def heard (es : List (ι × ι)) : ι → Finset ι := run (fun i => {i}) es

theorem run_sup [SemilatticeSup M] [OrderBot M] (v : ι → M) (K : ι → Finset ι)
    (es : List (ι × ι)) (j : ι) : run (fun i => (K i).sup v) es j = (run K es j).sup v := by
  induction es generalizing K with
  | nil => rfl
  | cons e es ih =>
    have hstep : step (fun i => (K i).sup v) e = fun i => (step K e i).sup v := by
      funext i
      by_cases hi : i = e.2
      · subst hi
        simp only [step, Function.update_self, Finset.sup_eq_union, Finset.sup_union]
      · simp only [step, Function.update_of_ne hi]
    rw [run, List.foldl_cons, hstep]
    exact ih (step K e)

theorem run_eq_sup_heard [SemilatticeSup M] [OrderBot M] (v : ι → M) (es : List (ι × ι)) (j : ι) :
    run v es j = (heard es j).sup v := by
  rw [heard, ← run_sup]
  simp only [Finset.sup_singleton]

end Exchange
