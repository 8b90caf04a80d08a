import EmbeddedRuby.Proofs.Follows.Operations

/-!
# Every run follows a course

What a program asks for follows a course, and so does the program.  That closes the circle:
`Reentry.follows_ofFuel` says that calling back follows courses however deep it goes, and with it
all lemmas before this one hold of the runs that there are.
-/

namespace EmbeddedRuby

open Eval

variable {σ : Type} {P : Probe → Prop} {r : Reentry σ}

/-- Each request settles. -/
theorem Request.settles_answer (hr : r.Follows P) (request : Request σ)
    (hrequest : request.Uses P) : Settles P (request.answer r) :=
  (request.told_answer Course.programRules hr.told (fun task _ => follows_perform hr task)
    hrequest).settles

/-- A program settles, if it uses no probes but those that are allowed. -/
theorem Program.settles_run (hr : r.Follows P) {role : Role} (program : Program σ role)
    (hprogram : program.Uses P) : Settles P (program.run r) :=
  (program.told_run Course.programRules hr.told (fun task _ => follows_perform hr task)
    hprogram).settles

/-- **Every run follows a course**, however deep the calls in it are nested. -/
theorem Reentry.follows_ofFuel (P : Probe → Prop) (fuel : Nat) :
    (Reentry.ofFuel fuel : Reentry σ).Follows P := by
  induction fuel with
  | zero =>
      refine ⟨fun call _ w _ => .exhausted w, fun program _ w _ => ⟨.exhausted w, ?_⟩⟩
      intro jump w' h
      cases h
  | succ fuel ih =>
      exact ⟨fun call hcall => follows_dispatch ih hcall,
        fun program hprogram => program.settles_run ih hprogram⟩

end EmbeddedRuby
