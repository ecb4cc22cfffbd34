import JobPipeline.Proofs.Json.Accepting
import JobPipeline.Proofs.Simulation.Moves
import JobPipeline.Service.Transport

/-
Runs that are planned by a service.

A reply means a plan, an error or neither.  Which of them is a matter of its body, and
there of the members of one object: the service says so with a status of success or
without.  Tasks are looked for first, so an error beside tasks is passed over.
-/
namespace JobPipeline

/-- The one member of a name. -/
def OnlyMember (members : List (String × Json)) (name : String) (json : Json) : Prop :=
  ∃ before after, members = before ++ (name, json) :: after ∧ ∀ m ∈ before ++ after, m.1 ≠ name

theorem onlyMember_iff {members : List (String × Json)} {name : String} {json : Json} :
    OnlyMember members name json ↔ members.filter (fun m => m.1 = name) = [(name, json)] := by
  rw [List.filter_eq_cons_iff]
  constructor
  · rintro ⟨before, after, hmembers, hothers⟩
    obtain ⟨hbefore, hafter⟩ := List.forall_mem_append.1 hothers
    refine ⟨before, after, hmembers, fun m hm => ?_, ?_, List.filter_eq_nil_iff.2 fun m hm => ?_⟩
    · simpa using hbefore m hm
    · simp
    · simpa using hafter m hm
  · rintro ⟨before, after, hmembers, hbefore, -, hafter⟩
    refine ⟨before, after, hmembers, List.forall_mem_append.2 ⟨fun m hm => ?_, fun m hm => ?_⟩⟩
    · simpa using hbefore m hm
    · simpa using List.filter_eq_nil_iff.1 hafter m hm

theorem OnlyMember.unique {members : List (String × Json)} {name : String} {json json' : Json}
    (h : OnlyMember members name json) (h' : OnlyMember members name json') : json = json' := by
  have heq := (onlyMember_iff.1 h).symm.trans (onlyMember_iff.1 h')
  simpa using heq

namespace Reply

/-- A member is needed and may not be given twice. -/
theorem needed?_only_eq_some_iff {α : Type} {members : List (String × Json)} {name : String}
    {read : Json → Option α} {a : α} :
    Json.needed? (only name members) name read = some a ↔
      ∃ json, OnlyMember members name json ∧ read json = some a := by
  constructor
  · intro h
    rw [only] at h
    split at h
    · next m hfilter =>
      have hname : m.1 = name := by
        have hmem : m ∈ members.filter fun m => m.1 = name := hfilter ▸ List.mem_singleton_self m
        simpa using (List.mem_filter.1 hmem).2
      obtain ⟨_, json⟩ := m
      subst hname
      refine ⟨json, onlyMember_iff.2 hfilter, ?_⟩
      simpa [Json.needed?] using h
    · cases h
  · rintro ⟨json, honly, hread⟩
    rw [only, onlyMember_iff.1 honly]
    simpa [Json.needed?] using hread

/-! ## What a reply means -/

/-- The body of a reply is an object with these members, in the order of the text. -/
def Object (r : Reply) (members : List (String × Json)) : Prop :=
  ∃ t, Json.Written (.element t) r.text.toList ∧
    t.within? Json.mostDepth .everything = some (.object members)

/-- The object has a list of tasks in the shape of a plan. -/
def Carries (r : Reply) (plan : Plan) : Prop :=
  ∃ members json, r.Object members ∧ OnlyMember members "tasks" json ∧
    Json.asList Instruction.ofJson json = .ok plan.tasks

/-- The object has the text of an error. -/
def Reports (r : Reply) (message : String) : Prop :=
  ∃ members, r.Object members ∧ OnlyMember members "error" (.string message)

variable {r : Reply} {plan : Plan} {message : String}

theorem object_iff {members : List (String × Json)} :
    r.Object members ↔ Json.read? r.text = some (.object members) :=
  Json.readWithin?_eq_some_iff.symm

theorem Object.unique {members members' : List (String × Json)} (h : r.Object members)
    (h' : r.Object members') : members = members' := by
  have heq := (object_iff.1 h).symm.trans (object_iff.1 h')
  simpa using heq

theorem carries_iff {members : List (String × Json)} (h : r.Object members) :
    r.Carries plan ↔
      Json.needed? (only "tasks" members) "tasks"
        (fun json => (Json.asList Instruction.ofJson json).toOption) = some plan.tasks := by
  rw [needed?_only_eq_some_iff]
  constructor
  · rintro ⟨_, json, hobject, honly, htasks⟩
    cases h.unique hobject
    exact ⟨json, honly, by rw [htasks]; rfl⟩
  · rintro ⟨json, honly, htasks⟩
    refine ⟨members, json, h, honly, ?_⟩
    cases hlist : Json.asList Instruction.ofJson json with
    | error fault => rw [hlist] at htasks; cases htasks
    | ok tasks => rw [hlist] at htasks; cases htasks; rfl

theorem reports_iff {members : List (String × Json)} (h : r.Object members) :
    r.Reports message ↔
      Json.needed? (only "error" members) "error" Json.string? = some message := by
  rw [needed?_only_eq_some_iff]
  constructor
  · rintro ⟨_, hobject, honly⟩
    cases h.unique hobject
    exact ⟨_, honly, rfl⟩
  · rintro ⟨json, honly, hstring⟩
    cases json with
    | string s =>
      cases hstring
      exact ⟨members, h, honly⟩
    | null | bool | number | array | object => cases hstring

theorem Carries.unique {plan' : Plan} (h : r.Carries plan) (h' : r.Carries plan') : plan = plan' := by
  obtain ⟨members, -, hobject, -⟩ := id h
  have heq := ((carries_iff hobject).1 h).symm.trans ((carries_iff hobject).1 h')
  exact congrArg Plan.mk (Option.some.inj heq)

theorem Reports.only {members : List (String × Json)} (h : r.Reports message) (hobject : r.Object members) :
    OnlyMember members "error" (.string message) := by
  obtain ⟨_, hobject', honly⟩ := h
  cases hobject'.unique hobject
  exact honly

theorem plan_eq_of_carries (h : r.Carries plan) : r.plan = .ok plan := by
  obtain ⟨members, -, hobject, -⟩ := id h
  have htasks := (carries_iff hobject).1 h
  rw [Reply.plan, object_iff.1 hobject, Option.bind_some, planAnswer?, htasks]

theorem plan_eq_of_reports (hnone : ∀ plan, ¬r.Carries plan) (h : r.Reports message) :
    r.plan = .error (.parse ⟨.reported message, none⟩) := by
  obtain ⟨members, hobject, -⟩ := id h
  have herror := (reports_iff hobject).1 h
  have htasks := Option.eq_none_iff_forall_ne_some.2 fun tasks htasks =>
    hnone ⟨tasks⟩ ((carries_iff hobject).2 htasks)
  rw [Reply.plan, object_iff.1 hobject, Option.bind_some, planAnswer?, htasks, herror]
  rfl

/-- Why a reply means nothing. -/
def unplanned (r : Reply) : JobError :=
  .collaborator (if r.isSuccess then .unexpected else .refused r.status r.text)

theorem plan_eq_of_neither (htasks : ∀ plan, ¬r.Carries plan) (herror : ∀ message, ¬r.Reports message) :
    r.plan = .error r.unplanned := by
  have hanswer : (Json.read? r.text).bind planAnswer? = none := by
    rw [Option.bind_eq_none_iff]
    intro json hread
    cases json with
    | object members =>
      have hobject := object_iff.2 hread
      have hnotasks := Option.eq_none_iff_forall_ne_some.2 fun tasks h =>
        htasks ⟨tasks⟩ ((carries_iff hobject).2 h)
      have hnoerror := Option.eq_none_iff_forall_ne_some.2 fun message h =>
        herror message ((reports_iff hobject).2 h)
      rw [planAnswer?, hnotasks, hnoerror]
      rfl
    | null | bool | number | string | array => rfl
  rw [Reply.plan, hanswer, unplanned, apply_ite JobError.collaborator]
  rfl

end Reply

/-! ## Entering a run -/

/-- A walk without a plan and without results. -/
def Walk.IsBare (w : Walk) : Prop := w.plan = Plan.empty ∧ w.results = []

namespace Simulation

variable {t : Transport} {a : ServiceAddress} {s : Simulation Unit} {r : Reply} {run : String}

theorem enter_answered (h : t.ask a.graphUrl (planQuestion s.job.graph.source) = .ok r) :
    s.enter (t.services a true) run = s.planned r.plan run := by
  have hservice : (t.services a true).plan = t.plan a := by simp only [Transport.services, if_true]
  have hplan : t.plan a s.job.graph.source = r.plan := by
    rw [Transport.plan, h, Except.bind]
  rw [enter_eq, hservice, hplan]

theorem enter_of_carries (h : t.ask a.graphUrl (planQuestion s.job.graph.source) = .ok r) {plan : Plan}
    (hcarries : r.Carries plan) : s.enter (t.services a true) run = (.ok (), s.entered plan run) := by
  rw [enter_answered h, Reply.plan_eq_of_carries hcarries]
  rfl

theorem enter_of_reports (h : t.ask a.graphUrl (planQuestion s.job.graph.source) = .ok r)
    (hnone : ∀ plan, ¬r.Carries plan) {message : String} (hreports : r.Reports message) :
    s.enter (t.services a true) run =
      (.error (.parse ⟨.reported message, none⟩), s.barred (.parse ⟨.reported message, none⟩) run) := by
  rw [enter_answered h, Reply.plan_eq_of_reports hnone hreports]
  rfl

theorem enter_of_neither (h : t.ask a.graphUrl (planQuestion s.job.graph.source) = .ok r)
    (htasks : ∀ plan, ¬r.Carries plan) (herror : ∀ message, ¬r.Reports message) :
    s.enter (t.services a true) run = (.error r.unplanned, s.barred r.unplanned run) := by
  rw [enter_answered h, Reply.plan_eq_of_neither htasks herror]
  rfl

/-- A reply that carries a plan, and no other, makes the run ready.  A reply that
reports an error fails it with this error exactly if it reports one error and carries
no plan.  A reply that does neither leaves the simulation without a run. -/
theorem enter_replied (h : t.ask a.graphUrl (planQuestion s.job.graph.source) = .ok r) (run : String) :
    (∀ plan, (s.enter (t.services a true) run).2.walk.status = .ready ∧
        (s.enter (t.services a true) run).2.walk.plan = plan ↔ r.Carries plan) ∧
    (∀ members message, r.Object members → ("error", .string message) ∈ members →
      ((s.enter (t.services a true) run).1 = .error (.parse ⟨.reported message, none⟩) ∧
          (s.enter (t.services a true) run).2.walk.status = .failed ⟨.reported message, none⟩ ∧
          (s.enter (t.services a true) run).2.walk.IsBare ↔
        OnlyMember members "error" (.string message) ∧ ∀ plan, ¬r.Carries plan)) ∧
    ((∀ plan, ¬r.Carries plan) → (∀ message, ¬r.Reports message) →
      (s.enter (t.services a true) run).1 =
          .error (.collaborator (if r.isSuccess then .unexpected else .refused r.status r.text)) ∧
        (s.enter (t.services a true) run).2.walk.status = .inactive ∧
        (s.enter (t.services a true) run).2.walk.IsBare) := by
  -- In each of the three cases the two that are not at hand are refuted by it.
  by_cases hcarries : ∃ plan, r.Carries plan
  · obtain ⟨plan, hplan⟩ := hcarries
    rw [enter_of_carries h hplan]
    refine ⟨fun plan' => ⟨fun ⟨_, heq⟩ => ?_, fun hplan' => ⟨rfl, hplan.unique hplan'⟩⟩,
      fun members message _ _ => ⟨nofun, fun ⟨_, hnone⟩ => absurd hplan (hnone plan)⟩,
      fun hnone _ => absurd hplan (hnone plan)⟩
    cases heq
    exact hplan
  · have hnone : ∀ plan, ¬r.Carries plan := not_exists.1 hcarries
    by_cases hreports : ∃ message, r.Reports message
    · obtain ⟨message, hmessage⟩ := hreports
      rw [enter_of_reports h hnone hmessage]
      refine ⟨fun plan => ⟨nofun, fun hplan => absurd hplan (hnone plan)⟩,
        fun members message' hobject _ => ⟨fun ⟨_, hfailed, _⟩ => ?_, fun ⟨honly, _⟩ => ?_⟩,
        fun _ hneither => absurd hmessage (hneither message)⟩
      · cases hfailed
        exact ⟨hmessage.only hobject, hnone⟩
      · cases (hmessage.only hobject).unique honly
        exact ⟨rfl, rfl, rfl, rfl⟩
    · have hneither : ∀ message, ¬r.Reports message := not_exists.1 hreports
      rw [enter_of_neither h hnone hneither]
      refine ⟨fun plan => ⟨nofun, fun hplan => absurd hplan (hnone plan)⟩,
        fun members message hobject _ => ⟨nofun, fun ⟨honly, _⟩ => ?_⟩,
        fun _ _ => ⟨rfl, rfl, rfl, rfl⟩⟩
      exact absurd ⟨members, hobject, honly⟩ (hneither message)

/-- Tasks and an error in one reply, with a status of failure. -/
def mixedReply : Reply :=
  ⟨422, "\x7b\"tasks\": [\x7b\"id\": \"a\"\x7d], \"error\": \"bad token at 1:3\"\x7d"⟩

/-- The error is not seen: the run is ready. -/
theorem enter_replied_mixed :
    mixedReply.Reports "bad token at 1:3" ∧
      (Simulation.enter (Transport.services (fun _ _ => some mixedReply) .standard true)
        ⟨.start, .ofType .webhook, (), []⟩ "exec-1").2.walk.status = .ready := by
  have hask : Transport.ask (fun _ _ => some mixedReply) ServiceAddress.standard.graphUrl
      (planQuestion (⟨.start, .ofType .webhook, (), []⟩ : Simulation Unit).job.graph.source) =
        .ok mixedReply := by
    have hurl : (Url.ofText? ServiceAddress.standard.graphUrl).any Url.isAskable = true := by decide +kernel
    obtain ⟨url, htext, haskable⟩ := (Option.any_eq_true _ _).1 hurl
    rw [Transport.ask, htext]
    simp only [haskable, if_true]
  have hobject : mixedReply.Object [("tasks", .array [.object [("id", .string "a")]]),
      ("error", .string "bad token at 1:3")] := Reply.object_iff.2 (by decide +kernel)
  have hcarries : mixedReply.Carries ⟨[⟨"a", []⟩]⟩ :=
    ⟨_, _, hobject, onlyMember_iff.2 rfl, rfl⟩
  refine ⟨⟨_, hobject, onlyMember_iff.2 rfl⟩, ?_⟩
  have hready := ((enter_replied hask "exec-1").1 _).2 hcarries
  exact hready.1

end Simulation
end JobPipeline
