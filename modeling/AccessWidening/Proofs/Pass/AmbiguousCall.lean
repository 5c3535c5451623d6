import AccessWidening.Proofs.Pass.ExactCall
import AccessWidening.Proofs.Pass.Policies

/-!
Calls that fail over an ambiguity are as good as not made.

Such a call returns the pass as it got it. So a run can do without the calls that fail in this way:
the other calls give the same results, and the pass is the same in the end.
-/

namespace AccessWidening

def Visit.isAmbiguous (visit : Visit) : Bool :=
  match visit.result with
  | .error (.ambiguous _) => true
  | _ => false

theorem Visit.isAmbiguous_iff {visit : Visit} :
    visit.isAmbiguous = true ↔ ∃ field, visit.result = .error (.ambiguous field) := by
  unfold isAmbiguous
  split
  · next field hresult => exact iff_of_true rfl ⟨field, hresult⟩
  · next hother => exact iff_of_false nofun fun ⟨field, hresult⟩ => hother field hresult

namespace Pass

/-- The calls of a run without those that fail over an ambiguity. -/
def heeded (pass : Pass) : List ClassDecl → List ClassDecl
  | [] => []
  | decl :: rest =>
    let visit := pass.transform decl
    if visit.isAmbiguous then visit.pass.heeded rest else decl :: visit.pass.heeded rest

variable {pass : Pass} {decl next : ClassDecl} {bucket : Bucket} {field : AmbiguousField}

/-! ## One call -/

theorem ambiguous_iff_ambiguity?_eq_some :
    (pass.transform decl).result = .error (.ambiguous field) ↔
      ∃ bucket, pass.pending.bucket? decl.name = some bucket ∧
        bucket.ambiguity? decl = some field := by
  cases hbucket : pass.pending.bucket? decl.name with
  | none =>
      rw [transform_of_bucket?_eq_none hbucket]
      simp
  | some bucket =>
      cases hfound : bucket.ambiguity? decl with
      | none =>
          rw [transform_of_ambiguity?_eq_none hbucket hfound]
          refine iff_of_false result_consume_ne_ambiguous ?_
          rintro ⟨other, hother, hsome⟩
          obtain rfl := Option.some.inj hother
          cases hfound.symm.trans hsome
      | some other =>
          rw [transform_of_ambiguity?_eq_some hbucket hfound]
          simp [hfound]

theorem exists_ambiguous_iff :
    (∃ field, (pass.transform decl).result = .error (.ambiguous field)) ↔
      ∃ bucket name, pass.pending.bucket? decl.name = some bucket ∧
        bucket.LeavesOpen decl name := by
  simp only [ambiguous_iff_ambiguity?_eq_some]
  rw [exists_comm]
  refine exists_congr fun bucket => ?_
  rw [exists_and_left, exists_and_left]
  exact and_congr_right fun _ => Bucket.exists_firstOpen?_iff fun _ => Iff.rfl

theorem transform_eq_of_ambiguous
    (hresult : (pass.transform decl).result = .error (.ambiguous field)) :
    pass.transform decl = ⟨pass, decl, .error (.ambiguous field), []⟩ := by
  obtain ⟨bucket, hbucket, hfound⟩ := ambiguous_iff_ambiguity?_eq_some.mp hresult
  exact transform_of_ambiguity?_eq_some hbucket hfound

theorem pass_transform_of_isAmbiguous (h : (pass.transform decl).isAmbiguous = true) :
    (pass.transform decl).pass = pass := by
  obtain ⟨field, hresult⟩ := Visit.isAmbiguous_iff.mp h
  rw [transform_eq_of_ambiguous hresult]

/-! ## A run -/

/-- A run without the calls that fail over an ambiguity comes to the same pass. -/
theorem after_heeded (pass : Pass) (calls : List ClassDecl) :
    pass.after (pass.heeded calls) = pass.after calls := by
  induction calls generalizing pass with
  | nil => rfl
  | cons decl rest ih =>
      rw [heeded, after_cons]
      split
      · next hambiguous =>
        rw [pass_transform_of_isAmbiguous hambiguous]
        exact ih pass
      · exact ih _

/-- The other calls of a run give the same results without them. -/
theorem visits_heeded (pass : Pass) (calls : List ClassDecl) :
    pass.visits (pass.heeded calls) =
      (pass.visits calls).filter fun visit => !visit.isAmbiguous := by
  induction calls generalizing pass with
  | nil => rfl
  | cons decl rest ih =>
      rw [heeded, visits]
      split
      · next hambiguous =>
        rw [List.filter_cons_of_neg (by simp [hambiguous]),
          pass_transform_of_isAmbiguous hambiguous]
        exact ih pass
      · next hheeded =>
        rw [List.filter_cons_of_pos (by simp [hheeded]), visits, ih]

/-- A bucket stays pending as a whole over calls for other classes and over calls that it is
ambiguous for. -/
theorem bucket?_after_of_leavesOpen {owner : String} {calls : List ClassDecl}
    (hbucket : pass.pending.bucket? owner = some bucket)
    (hopen : ∀ other ∈ calls, other.name = owner → ∃ name, bucket.LeavesOpen other name) :
    (pass.after calls).pending.bucket? owner = some bucket := by
  induction calls generalizing pass with
  | nil => exact hbucket
  | cons other rest ih =>
      obtain ⟨hother, hrest⟩ := List.forall_mem_cons.mp hopen
      have hstep : (pass.transform other).pass.pending.bucket? owner = some bucket := by
        by_cases howner : other.name = owner
        · have huntaken : ¬ ∃ bucket, pass.Takes other bucket := by
            rintro ⟨taken, htakes⟩
            obtain ⟨htaken, hclear⟩ := takes_iff.mp htakes
            rw [howner, hbucket] at htaken
            obtain rfl := Option.some.inj htaken
            obtain ⟨name, hname⟩ := hother howner
            exact hclear name hname
          rw [pass_transform_of_not_takes huntaken, hbucket]
        · rw [bucket?_transform pass howner, hbucket]
      exact ih hstep hrest

/-! ## All of it -/

/-- What it means for a pass that ambiguities are met where there are any, and leave no trace. -/
structure UntracedByAmbiguity (pass : Pass) : Prop where
  /-- A call fails over an ambiguity exactly if there is a bucket for the class, and it leaves a
  field name of the class open. -/
  ambiguous_iff : ∀ decl, (∃ field, (pass.transform decl).result = .error (.ambiguous field)) ↔
    ∃ bucket name, pass.pending.bucket? decl.name = some bucket ∧ bucket.LeavesOpen decl name
  /-- What it reports is so, and it does nothing else. -/
  of_ambiguous : ∀ decl field, (pass.transform decl).result = .error (.ambiguous field) →
    (∃ bucket, pass.pending.bucket? decl.name = some bucket ∧ field.Describes bucket decl) ∧
      pass.transform decl = ⟨pass, decl, .error (.ambiguous field), []⟩
  /-- A search of the rules in another order reports something as often, and what it reports is so
  too. -/
  of_order : ∀ decl bucket order, pass.pending.bucket? decl.name = some bucket →
    order.Perm bucket.remaining →
      ((∃ field, Bucket.firstOpen? order decl = some field) ↔
        ∃ field, (pass.transform decl).result = .error (.ambiguous field)) ∧
      ∀ field, Bucket.firstOpen? order decl = some field → field.Describes bucket decl
  /-- The calls after one that fails over an ambiguity do what they do without it. -/
  later : ∀ decl field calls, (pass.transform decl).result = .error (.ambiguous field) →
    pass.visits (decl :: calls) = pass.transform decl :: pass.visits calls ∧
      pass.after (decl :: calls) = pass.after calls
  /-- A run can do without all calls that fail in this way. -/
  run : ∀ calls,
    pass.visits (pass.heeded calls) = (pass.visits calls).filter (fun visit => !visit.isAmbiguous) ∧
      pass.after (pass.heeded calls) = pass.after calls
  /-- The first class for which a bucket is not ambiguous gets all of it. -/
  first_clear : ∀ decl bucket calls, pass.pending.bucket? decl.name = some bucket →
    (∀ other ∈ calls, other.name = decl.name → ∃ name, bucket.LeavesOpen other name) →
    (∀ name, ¬ bucket.LeavesOpen decl name) →
      ((pass.after calls).transform decl).Applies (pass.after calls) bucket decl

/-- In any state and under any policy, ambiguities are met exactly, and a call that fails over one
is as good as not made: the class and the pass stay as they are, it has no events, and so the calls
after it and the end of the pass are what they are without it. -/
theorem ambiguous_calls_leave_no_trace (pass : Pass) : pass.UntracedByAmbiguity where
  ambiguous_iff _ := exists_ambiguous_iff
  of_ambiguous decl field hresult := by
    obtain ⟨bucket, hbucket, hfound⟩ := ambiguous_iff_ambiguity?_eq_some.mp hresult
    exact ⟨⟨bucket, hbucket, Bucket.describes_of_firstOpen? (fun _ => Iff.rfl) hfound⟩,
      transform_eq_of_ambiguous hresult⟩
  of_order decl bucket order hbucket horder := by
    refine ⟨?_, fun field => Bucket.describes_of_firstOpen? fun _ => horder.mem_iff⟩
    rw [Bucket.exists_firstOpen?_iff fun _ => horder.mem_iff, exists_ambiguous_iff, hbucket]
    simp
  later decl field calls hresult := by
    have hpass : (pass.transform decl).pass = pass := by rw [transform_eq_of_ambiguous hresult]
    constructor
    · rw [visits, hpass]
    · rw [after_cons, hpass]
  run calls := ⟨visits_heeded pass calls, after_heeded pass calls⟩
  first_clear decl bucket calls hbucket hopen hclear :=
    (takes_iff.mpr ⟨bucket?_after_of_leavesOpen hbucket hopen, hclear⟩).applies

/-- A class with three fields of a name, two of them of one descriptor, and rules for the name and
for one of the fields. Under a policy that fails fast the call is refused. The next class of the
name has one such field, and what is left of the bucket then is stale: the call tells so as it would
have without the one before. -/
theorem ambiguous_call_leaves_no_trace_of_three_fields :
    let rules := RuleSet.empty.requestAll [(.field "a/A" "x" none, ⟨.prot, .dropFinal⟩),
      (.field "a/A" "x" (some "I"), ⟨.pub, .unstated⟩),
      (.method "a/A" "gone" "()V", ⟨.pub, .unstated⟩)]
    let pass := start rules .failFast
    let refused : ClassDecl := ⟨"a/A", ⟨1⟩,
      [⟨"x", "I", ⟨2⟩⟩, ⟨"x", "J", ⟨2⟩⟩, ⟨"y", "I", ⟨2⟩⟩, ⟨"x", "I", ⟨2⟩⟩], []⟩
    let field : AmbiguousField := ⟨"a/A", "x", ["I", "J", "I"]⟩
    let next : ClassDecl := ⟨"a/A", ⟨1⟩, [⟨"x", "I", ⟨0x12⟩⟩], []⟩
    (pass.transform refused).result = .error (.ambiguous field) ∧
    pass.transform refused = ⟨pass, refused, .error (.ambiguous field), []⟩ ∧
    pass.visits [refused, next] = pass.transform refused :: pass.visits [next] ∧
    pass.after [refused, next] = pass.after [next] ∧
    ((pass.after [refused]).transform next).decl = ⟨"a/A", ⟨1⟩, [⟨"x", "I", ⟨1⟩⟩], []⟩ ∧
    ((pass.after [refused]).transform next).result =
      .error (.stale (.ofList [.method "a/A" "gone" "()V"])) := by
  intro rules pass refused field next
  have huntraced := ambiguous_calls_leave_no_trace pass
  have hresult : (pass.transform refused).result = .error (.ambiguous field) := by decide
  let bucket : Bucket := (pass.pending.bucket? "a/A").get (by decide)
  obtain ⟨hbucket, hclear⟩ := takes_iff.mp (show pass.Takes next bucket from
    ⟨(Option.some_get _).symm, by decide⟩)
  have hopen : bucket.LeavesOpen refused "x" := by
    constructor
    · decide
    · decide
  have happlies := huntraced.first_clear next bucket [refused] hbucket
    (by
      intro other hother _
      obtain rfl := List.mem_singleton.mp hother
      exact ⟨"x", hopen⟩) hclear
  obtain ⟨hvisits, hafter⟩ := huntraced.later refused field [next] hresult
  exact ⟨hresult, (huntraced.of_ambiguous refused field hresult).2, hvisits, hafter,
    happlies.decl_eq.trans (by decide), happlies.result_eq.trans (by decide)⟩

end Pass

end AccessWidening
