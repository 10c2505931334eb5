/-!
Results of computations in a row, with and without states between them.
-/
namespace Bitpack

variable {ε α β σ τ : Type}

theorem bind_eq_ok_iff {x : Except ε α} {f : α → Except ε β} {b : β} :
    (x >>= f) = .ok b ↔ ∃ a, x = .ok a ∧ f a = .ok b := by
  cases x with
  | error e =>
      constructor
      · intro heq
        cases heq
      · rintro ⟨a, heq, _⟩
        cases heq
  | ok a =>
      constructor
      · intro heq
        exact ⟨a, rfl, heq⟩
      · rintro ⟨other, heq, hf⟩
        cases heq
        exact hf

theorem exists_of_mem_mapM {f : α → Option β} {as : List α} {bs : List β}
    (h : as.mapM f = some bs) : ∀ b ∈ bs, ∃ a ∈ as, f a = some b := by
  induction as generalizing bs with
  | nil =>
      rw [List.mapM_nil] at h
      cases h
      simp
  | cons a rest ih =>
      simp only [List.mapM_cons, Option.bind_eq_bind, Option.bind_eq_some_iff] at h
      obtain ⟨first, hfirst, others, hothers, heq⟩ := h
      cases heq
      intro b hb
      rcases List.mem_cons.mp hb with rfl | hb
      · exact ⟨a, List.mem_cons_self, hfirst⟩
      · obtain ⟨a', ha', hb⟩ := ih hothers b hb
        exact ⟨a', List.mem_cons_of_mem a ha', hb⟩

theorem stateM_bind (x : StateM τ α) (f : α → StateM τ β) (t : τ) :
    (x >>= f) t = f (x t).1 (x t).2 :=
  rfl

theorem run_bind_of_ok {x : ExceptT ε (StateM τ) α} {f : α → ExceptT ε (StateM τ) β} {t t' : τ}
    {a : α} (hx : x.run t = (.ok a, t')) : (x >>= f).run t = (f a).run t' := by
  have hbind : (x >>= f).run t = ExceptT.bindCont f (x.run t).1 (x.run t).2 :=
    rfl
  rw [hbind, hx]
  rfl

theorem run_bind_of_error {x : ExceptT ε (StateM τ) α} {f : α → ExceptT ε (StateM τ) β} {t t' : τ}
    {e : ε} (hx : x.run t = (.error e, t')) : (x >>= f).run t = (.error e, t') := by
  have hbind : (x >>= f).run t = ExceptT.bindCont f (x.run t).1 (x.run t).2 :=
    rfl
  rw [hbind, hx]
  rfl

theorem run_lift (y : StateM τ α) (t : τ) :
    (ExceptT.lift y : ExceptT ε (StateM τ) α).run t = (.ok (y t).1, (y t).2) :=
  rfl

/-- What a computation over two states leaves: its result, the inner state and the outer one. -/
def outcome (x : ExceptT ε (StateT σ (StateM τ)) α) (s : σ) (t : τ) : Except ε α × σ × τ :=
  (((x.run.run s).run t).1.1, ((x.run.run s).run t).1.2, ((x.run.run s).run t).2)

theorem outcome_eq_iff {x : ExceptT ε (StateT σ (StateM τ)) α} {s s' : σ} {t t' : τ}
    {result : Except ε α} :
    outcome x s t = (result, s', t') ↔ (x.run.run s).run t = ((result, s'), t') := by
  unfold outcome
  constructor
  · intro h
    obtain ⟨hresult, hrest⟩ := Prod.mk.inj h
    obtain ⟨hs, ht⟩ := Prod.mk.inj hrest
    exact Prod.ext (Prod.ext hresult hs) ht
  · intro h
    rw [h]

theorem outcome_bind (x : ExceptT ε (StateT σ (StateM τ)) α)
    (f : α → ExceptT ε (StateT σ (StateM τ)) β) (s : σ) (t : τ) :
    outcome (x >>= f) s t =
      match outcome x s t with
      | (.ok a, s', t') => outcome (f a) s' t'
      | (.error e, s', t') => (.error e, s', t') := by
  have hbind : ((x >>= f).run.run s).run t =
      (ExceptT.bindCont f ((x.run.run s).run t).1.1) ((x.run.run s).run t).1.2
        ((x.run.run s).run t).2 :=
    rfl
  unfold outcome
  rw [hbind]
  cases ((x.run.run s).run t).1.1 <;> rfl

theorem outcome_bind_of_ok {x : ExceptT ε (StateT σ (StateM τ)) α}
    {f : α → ExceptT ε (StateT σ (StateM τ)) β} {s s' : σ} {t t' : τ} {a : α}
    (hx : outcome x s t = (.ok a, s', t')) : outcome (x >>= f) s t = outcome (f a) s' t' := by
  rw [outcome_bind, hx]

theorem outcome_bind_of_error {x : ExceptT ε (StateT σ (StateM τ)) α}
    {f : α → ExceptT ε (StateT σ (StateM τ)) β} {s s' : σ} {t t' : τ} {e : ε}
    (hx : outcome x s t = (.error e, s', t')) : outcome (x >>= f) s t = (.error e, s', t') := by
  rw [outcome_bind, hx]

theorem outcome_lift (y : StateM τ α) (s : σ) (t : τ) :
    outcome (ExceptT.lift (StateT.lift y) : ExceptT ε (StateT σ (StateM τ)) α) s t =
      (.ok (y t).1, s, (y t).2) :=
  rfl

end Bitpack
