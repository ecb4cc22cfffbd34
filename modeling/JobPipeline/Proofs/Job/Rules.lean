import JobPipeline.Proofs.Job.Configuration

/-
The rules of the job types, field by field.

Only two types have fields of their own, and only the last field of one of them is
written without quotes.
-/
namespace JobPipeline
namespace JobType

variable {raw : String}

theorem allows_schedule (raw : String) : JobType.cron.allows "schedule" raw =
    (decide (5 ≤ (Text.words raw.toList).length) && decide ((Text.words raw.toList).length ≤ 6)) := by
  rw [allows, if_pos rfl]

theorem allows_address (raw : String) :
    JobType.directRequest.allows "contractAddress" raw = isAddress raw := by
  rw [allows, if_pos rfl]

theorem allows_payment (raw : String) :
    JobType.directRequest.allows "minContractPaymentLinkJuels" raw = isAmount (Text.trimmed raw) := by
  rw [allows, if_neg (by decide), if_pos rfl]

theorem allows_confirmations (raw : String) :
    JobType.directRequest.allows "minIncomingConfirmations" raw =
      (Numeral.natural? Numeral.most64 (Text.trimmed raw)).any fun n => 1 ≤ n := by
  rw [allows, if_neg (by decide), if_neg (by decide), if_pos rfl]

/-- The fields of the job types, each with what its rule asks for. -/
theorem field_cases {type : JobType} {layout : JobFieldLayout} (h : layout ∈ type.fields)
    (hallows : type.allows layout.key raw = true) :
    (type = .cron ∧ layout = ⟨"schedule", .cronSchedule, defaultSchedule⟩ ∧
      5 ≤ (Text.words raw.toList).length ∧ (Text.words raw.toList).length ≤ 6) ∨
    (type = .directRequest ∧ layout = ⟨"contractAddress", .quoted, ""⟩ ∧ isAddress raw = true) ∨
    (type = .directRequest ∧ layout = ⟨"minContractPaymentLinkJuels", .quotedOptional, "0"⟩ ∧
      isAmount (Text.trimmed raw) = true) ∨
    (type = .directRequest ∧ layout = ⟨"minIncomingConfirmations", .bare, "1"⟩ ∧
      ∃ n, Numeral.natural? Numeral.most64 (Text.trimmed raw) = some n ∧ 1 ≤ n) := by
  cases type with
  | cron =>
    rw [List.mem_singleton.1 h] at hallows ⊢
    rw [allows_schedule, Bool.and_eq_true, decide_eq_true_eq, decide_eq_true_eq] at hallows
    exact .inl ⟨rfl, rfl, hallows⟩
  | directRequest =>
    rcases List.mem_cons.1 h with rfl | h
    · rw [allows_address] at hallows
      exact .inr (.inl ⟨rfl, rfl, hallows⟩)
    rcases List.mem_cons.1 h with rfl | h
    · rw [allows_payment] at hallows
      exact .inr (.inr (.inl ⟨rfl, rfl, hallows⟩))
    · rw [List.mem_singleton.1 h] at hallows ⊢
      rw [allows_confirmations, Option.any_eq_true] at hallows
      obtain ⟨n, hn, hle⟩ := hallows
      exact .inr (.inr (.inr ⟨rfl, rfl, n, hn, of_decide_eq_true hle⟩))
  | _ => cases h

/-- A value without quotes stands in the last line of a preamble, if there is one. -/
theorem exists_above {type : JobType} {layout : JobFieldLayout} (h : layout ∈ type.fields)
    (hstyle : layout.style = .bare) :
    ∃ above, type.fields = above ++ [layout] ∧ ∀ other ∈ above, other.style ≠ .bare := by
  cases type with
  | cron =>
    rw [List.mem_singleton.1 h] at hstyle
    cases hstyle
  | directRequest =>
    rcases List.mem_cons.1 h with rfl | h
    · cases hstyle
    rcases List.mem_cons.1 h with rfl | h
    · cases hstyle
    rw [List.mem_singleton.1 h]
    exact ⟨[_, _], rfl, by simp⟩
  | _ => cases h

end JobType

theorem JobConfig.Configured.natural?_of_bare {config : JobConfig} (h : config.Configured)
    (hvalid : config.isValid = true) {layout : JobFieldLayout} (hlayout : layout ∈ config.type.fields)
    (hstyle : layout.style = .bare) :
    ∃ n, Numeral.natural? Numeral.most64 (Text.trimmed (config.raw layout.key)) = some n ∧ 0 < n := by
  rcases JobType.field_cases hlayout (h.allows_raw hvalid hlayout) with ⟨-, rfl, -⟩ | ⟨-, rfl, -⟩ |
    ⟨-, rfl, -⟩ | ⟨-, rfl, hn⟩
  · cases hstyle
  · cases hstyle
  · cases hstyle
  · exact hn

end JobPipeline
