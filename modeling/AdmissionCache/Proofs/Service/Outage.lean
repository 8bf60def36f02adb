import AdmissionCache.Proofs.Service.Learning

namespace AdmissionCache

/-- Whether a resolution says nothing about the project. -/
def Resolution.bringsNothing : Resolution → Bool
  | .pending => true
  | .failed => true
  | _ => false

/-- Whether an entry brings nothing for the key: what is applied for it is a failure or puts
it off, and its override stays as it is. -/
def Entry.uninformative (key : ProjectKey) : Entry → Bool
  | .applied _ _ k r _ => k ≠ key || r.bringsNothing
  | .overridden k _ _ => k ≠ key
  | .withdrawn k => k ≠ key
  | _ => true

/-- What can become of a decision by age alone. -/
inductive Decision.Onward : Decision → Decision → Prop
  | same (d) : Onward d d
  | staled (config) : Onward (.useFresh config) (.useStale config)
  | expired {d config} : d.config? = some config → Onward d .unknown
  | missed : Onward .notFound .unknown

theorem Knowledge.settle_bringsNothing {r : Resolution} (nothing : r.bringsNothing = true) (stamp : Instant)
    (k : Knowledge) : k.settle stamp (r.lesson stamp) = none := by
  cases r with
  | pending => exact settle_pending stamp k
  | failed => exact settle_failed stamp k
  | _ => cases nothing

/-- How a classification changes with age. -/
inductive Freshness.Onward : Freshness → Freshness → Prop
  | same {f} : Onward f f
  | staled : Onward .fresh .stale
  | expired {f} : f ≠ .expired → Onward f .expired

theorem Policy.classify_later {p : Policy} {fetchedAt t₁ t₂ : Instant} {f₁ f₂ : Freshness}
    (later : t₁.nanos ≤ t₂.nanos) (first : p.classify fetchedAt t₁ = .ok f₁)
    (second : p.classify fetchedAt t₂ = .ok f₂) : f₁.Onward f₂ := by
  rw [classify_eq] at first second
  split_ifs at first second <;> cases first <;> cases second
  all_goals first
    | exact .same
    | exact .staled
    | exact .expired nofun
    | omega

theorem Knowledge.onward {p : Policy} {k : Knowledge} {t₁ t₂ : Instant} {d₁ d₂ : Decision} {wants₁ wants₂ : Bool}
    (later : t₁.nanos ≤ t₂.nanos) (first : k.read p t₁ = .ok ⟨d₁, wants₁⟩)
    (second : k.read p t₂ = .ok ⟨d₂, wants₂⟩) : d₁.Onward d₂ := by
  cases k with
  | nothing =>
    cases first
    cases second
    exact .same _
  | missing checkedAt =>
    have kept (gone : p.missExpired checkedAt t₁ = true) : p.missExpired checkedAt t₂ = true := by
      rw [← Bool.not_eq_false, Policy.missExpired_eq_false] at gone ⊢
      omega
    rw [read] at first second
    split_ifs at first second with gone₁ gone₂ gone₂
    · cases first
      cases second
      exact .same _
    · exact absurd (kept gone₁) gone₂
    · cases first
      cases second
      exact .missed
    · cases first
      cases second
      exact .same _
  | loaded config fetchedAt =>
    rw [read] at first second
    cases before : p.classify fetchedAt t₁ with
    | error e =>
      rw [before] at first
      cases first
    | ok freshness₁ =>
      cases after : p.classify fetchedAt t₂ with
      | error e =>
        rw [after] at second
        cases second
      | ok freshness₂ =>
        have aged := Policy.classify_later later before after
        rw [before] at first
        rw [after] at second
        cases aged with
        | same =>
          rw [first] at second
          cases second
          exact .same _
        | staled =>
          cases first
          cases second
          exact .staled config
        | expired young =>
          cases freshness₁ with
          | expired => exact absurd rfl young
          | _ =>
            cases first
            cases second
            exact .expired rfl

namespace Service
variable {s s' : Service} {e : Event} {new : List Entry} {key : ProjectKey} {t : Instant}

/-- What an uninformative step leaves known reads as before. -/
theorem Move.reads_on (move : Move s e new s') (orderly : s.Orderly)
    (ordered : ∀ now, e.time? = some now → now.nanos ≤ t.nanos)
    (uninformative : ∀ x ∈ new, x.uninformative key = true) :
    (s'.cache.knows key).read s.cache.policy t = (s.cache.knows key).read s.cache.policy t := by
  cases move.learned orderly key with
  | same kept _ => rw [kept]
  | forgotten nothing cause =>
    rcases cause with withdrawn | ⟨now, _, rfl, faded⟩
    · have kept := uninformative _ withdrawn
      exact absurd rfl (of_decide_eq_true kept)
    · have gone : (s.cache.knows key).Faded s.cache.policy t := faded.later (ordered now rfl)
      rw [nothing]
      exact gone.symm
  | @applied b r learned before after _ _ settled _ _ _ _ =>
    have nothing := uninformative _ (List.mem_append_right _ List.mem_cons_self)
    rw [Entry.uninformative, Bool.or_eq_true, decide_eq_true_iff] at nothing
    rw [Knowledge.settle_bringsNothing (nothing.resolve_left (absurd rfl))] at settled
    cases settled
  | overridden _ _ _ =>
    have kept := uninformative _ (List.mem_append_right _ List.mem_cons_self)
    exact absurd rfl (of_decide_eq_true kept)

theorem reads_on {events : List Event} (orderly : s.Orderly)
    (ordered : ∀ e ∈ events, ∀ now, e.time? = some now → now.nanos ≤ t.nanos)
    (uninformative : ∀ x ∈ s.chronicle events, x.uninformative key = true) :
    ((s.run events).cache.knows key).read (s.run events).cache.policy t =
      (s.cache.knows key).read s.cache.policy t := by
  induction events generalizing s with
  | nil => rfl
  | cons e rest ih =>
    have moved := s.step_move e
    rw [List.forall_mem_cons] at ordered
    rw [chronicle, List.forall_mem_append] at uninformative
    have kept := moved.reads_on orderly ordered.1 uninformative.1
    rw [← moved.policy] at kept
    exact (ih (orderly.move moved) ordered.2 uninformative.2).trans (kept.trans (by rw [moved.policy]))

/-- While nothing is found out about a key, at every instant a lookup decides what it would
have decided on the cache before; so the decisions for the key only move forward. -/
theorem outage_keeps_decisions (policy : Policy) (settings : ServiceSettings) (withOverrides : Bool)
    (history events : List Event) (key : ProjectKey)
    (uninformative : ∀ e ∈ ((start policy settings withOverrides).run history).chronicle events,
      e.uninformative key = true) :
    let s := (start policy settings withOverrides).run history
    (∀ first rest purpose t, events = first ++ rest → ClockOrder first t →
      ((s.run first).look purpose key t).map (·.2) = (s.cache.get key t).map (·.2.decision)) ∧
    ∀ first middle rest purpose₁ purpose₂ t₁ t₂ s₁ s₂ d₁ d₂, events = first ++ middle ++ rest →
      ClockOrder first t₁ → ClockOrder (first ++ middle) t₂ → t₁.nanos ≤ t₂.nanos →
      (s.run first).look purpose₁ key t₁ = .ok (s₁, d₁) →
      (s.run (first ++ middle)).look purpose₂ key t₂ = .ok (s₂, d₂) → d₁.Onward d₂ := by
  intro s
  have orderly : s.Orderly := (start_orderly policy settings withOverrides).run history
  have reads (first rest : List Event) (t : Instant) (parted : events = first ++ rest) (order : ClockOrder first t) :
      ((s.run first).cache.knows key).read (s.run first).cache.policy t = (s.cache.knows key).read s.cache.policy t := by
    refine reads_on orderly order.each_le fun x member => uninformative x ?_
    rw [parted, chronicle_append]
    exact List.mem_append_left _ member
  constructor
  · intro first rest purpose t parted order
    rw [look_decision, reads first rest t parted order, ← look_decision s .lookup, look]
    cases s.cache.get key t <;> rfl
  · intro first middle rest purpose₁ purpose₂ t₁ t₂ s₁ s₂ d₁ d₂ parted order₁ order₂ later looked₁ looked₂
    obtain ⟨wants₁, read₁⟩ := look_read looked₁
    obtain ⟨wants₂, read₂⟩ := look_read looked₂
    rw [reads first (middle ++ rest) t₁ (by rw [parted, List.append_assoc]) order₁] at read₁
    rw [reads (first ++ middle) rest t₂ parted order₂] at read₂
    exact Knowledge.onward later read₁ read₂

/-- A configuration turns stale while the authority puts the key off and answers for another;
then its batch breaks down, and a sweep finds that it counts no longer. -/
theorem configuration_ages_through_outage :
    let s := (start ⟨.ofSecs 1, .ofSecs 1, .ofSecs 10⟩ { batchSize := 10, queryTimeout := .ofSecs 30 } false).run
      [.look .lookup "a" .origin, .advance 0, .receive, .dispatch .origin, .consult 0 fun _ => .ok none,
        .answer 0 (.ok { configs := KeyMap.ofList [("a", some (.object []))] }), .complete 0 (.ofMillis 100)]
    let outage : List Event := [.look .check "a" (.ofMillis 1500), .advance 0, .look .check "b" (.ofMillis 1500),
      .advance 1, .receive, .receive, .dispatch (.ofMillis 1600),
      .consult 1 fun _ => .ok none, .consult 1 fun _ => .ok none,
      .answer 1 (.ok { configs := KeyMap.ofList [("b", some (.object []))], pending := ["a"] }),
      .complete 1 (.ofMillis 1700)]
    let breakdown : List Event :=
      [.dispatch (.ofMillis 1950), .lose 2, .complete 2 (.ofMillis 1960), .sweep (.ofMillis 2000)]
    (((s.run outage).look .lookup "a" (.ofMillis 1900)).map (·.2) =
        (s.cache.get "a" (.ofMillis 1900)).map (·.2.decision) ∧
      (s.cache.get "a" (.ofMillis 1900)).toOption.map (·.2.decision.name) = some "stale") ∧
    ∃ s₁ s₂ d₁ d₂, (s.run outage).look .lookup "a" (.ofMillis 1900) = .ok (s₁, d₁) ∧
      (s.run (outage ++ breakdown)).look .lookup "a" (.ofMillis 2000) = .ok (s₂, d₂) ∧
      d₂.name = "unknown" ∧ d₁.Onward d₂ := by
  intro s outage breakdown
  have order₁ : ClockOrder outage (.ofMillis 1900) := by
    unfold ClockOrder
    decide +kernel
  have order₂ : ClockOrder (outage ++ breakdown) (.ofMillis 2000) := by
    unfold ClockOrder
    decide +kernel
  have quiet : ∀ e ∈ s.chronicle (outage ++ breakdown), e.uninformative "a" = true :=
    List.all_eq_true.mp (by decide +kernel)
  obtain ⟨kept, onward⟩ := outage_keeps_decisions _ _ _ _ (outage ++ breakdown) "a" quiet
  have readable : ((s.run outage).look .lookup "a" (.ofMillis 1900)).toOption.isSome = true := by decide +kernel
  have gone : ((s.run (outage ++ breakdown)).look .lookup "a" (.ofMillis 2000)).toOption.map (·.2.name) =
      some "unknown" := by decide +kernel
  refine ⟨⟨kept outage breakdown .lookup (.ofMillis 1900) rfl order₁, by decide +kernel⟩, ?_⟩
  cases looked₁ : (s.run outage).look .lookup "a" (.ofMillis 1900) with
  | error e =>
    rw [looked₁] at readable
    cases readable
  | ok answer₁ =>
    cases looked₂ : (s.run (outage ++ breakdown)).look .lookup "a" (.ofMillis 2000) with
    | error e =>
      rw [looked₂] at gone
      cases gone
    | ok answer₂ =>
      rw [looked₂] at gone
      refine ⟨_, _, _, _, rfl, rfl, Option.some.inj gone, ?_⟩
      exact onward outage breakdown [] .lookup .lookup _ _ _ _ _ _ (List.append_nil _).symm order₁ order₂
        (by decide) looked₁ looked₂

end Service

end AdmissionCache
