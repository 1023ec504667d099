import Mathlib.Algebra.GroupWithZero.Nat
import Mathlib.Data.List.Induction

/-!
# Computations that may end early

An `Except` computation is peeled apart one step at a time: a successful
bind has a successful first part and a successful rest.  Two computations
are related when they end early alike or have related results; a
computation avoids an early end when it ends in another way or has a result
of a given kind.
-/

namespace Exits

variable {χ α β : Type}

theorem bind_eq_ok {x : Except χ α} {f : α → Except χ β} {b : β} :
    x >>= f = .ok b ↔ ∃ a, x = .ok a ∧ f a = .ok b := by
  cases x with
  | error e =>
      constructor
      · intro h
        cases h
      · rintro ⟨a, h, -⟩
        cases h
  | ok a =>
      constructor
      · intro h
        exact ⟨a, rfl, h⟩
      · rintro ⟨_, h, hf⟩
        cases h
        exact hf

@[simp] theorem ok_bind (a : α) (f : α → Except χ β) : Except.ok a >>= f = f a := rfl

@[simp] theorem error_bind (e : χ) (f : α → Except χ β) :
    (Except.error e : Except χ α) >>= f = .error e := rfl

@[simp] theorem pure_eq_ok (a : α) : (pure a : Except χ α) = .ok a := rfl

@[simp] theorem throw_eq_error (e : χ) : (throw e : Except χ α) = .error e := rfl

/-- A result that can be evaluated. -/
theorem exists_ok {x : Except χ α} (P : α → Prop) [DecidablePred P]
    (h : (x.toOption.any fun a ↦ decide (P a)) = true) : ∃ a, x = .ok a ∧ P a := by
  cases x with
  | error e => cases h
  | ok a => exact ⟨a, rfl, of_decide_eq_true h⟩

theorem foldlM_cons_eq_ok {f : β → α → Except χ β} {a : α} {as : List α} {b c : β} :
    (a :: as).foldlM f b = .ok c ↔ ∃ b', f b a = .ok b' ∧ as.foldlM f b' = .ok c := by
  rw [List.foldlM_cons, bind_eq_ok]

theorem foldlM_keeps {P : β → Prop} {f : β → α → Except χ β} {as : List α} {b c : β}
    (hstep : ∀ {b b' a}, a ∈ as → P b → f b a = .ok b' → P b')
    (h : as.foldlM f b = .ok c) (hb : P b) : P c := by
  induction as generalizing b with
  | nil =>
      cases h
      exact hb
  | cons a as ih =>
      obtain ⟨b', hb', hrest⟩ := foldlM_cons_eq_ok.mp h
      exact ih (fun ha ↦ hstep (List.mem_cons_of_mem _ ha)) hrest (hstep (by simp) hb hb')

/-- A loop whose steps all return. -/
theorem exists_foldlM {P : β → Prop} {f : β → α → Except χ β} {as : List α} {b : β}
    (hstep : ∀ a ∈ as, ∀ b, P b → ∃ b', f b a = .ok b' ∧ P b') (hb : P b) :
    ∃ c, as.foldlM f b = .ok c ∧ P c := by
  induction as generalizing b with
  | nil => exact ⟨b, rfl, hb⟩
  | cons a as ih =>
      obtain ⟨b', hab, hb'⟩ := hstep a (by simp) b hb
      obtain ⟨c, hrest, hc⟩ := ih (fun a ha ↦ hstep a (List.mem_cons_of_mem _ ha)) hb'
      exact ⟨c, foldlM_cons_eq_ok.mpr ⟨b', hab, hrest⟩, hc⟩

/-- A loop grows by no more than its steps. -/
theorem foldlM_size_le (size : β → ℕ) (width : α → ℕ) {f : β → α → Except χ β} {as : List α}
    {b c : β} (hstep : ∀ {b a b'}, f b a = .ok b' → size b' ≤ size b + width a)
    (h : as.foldlM f b = .ok c) : size c ≤ size b + (as.map width).sum := by
  induction as generalizing b with
  | nil =>
      cases h
      exact Nat.le_refl _
  | cons a as ih =>
      obtain ⟨b', hb', hrest⟩ := foldlM_cons_eq_ok.mp h
      have hfirst := hstep hb'
      have hrest := ih hrest
      rw [List.map_cons, List.sum_cons]
      omega

/-- A loop each of whose steps adds a result for its element. -/
theorem exists_forall₂_of_foldlM {γ : Type} {R : α → γ → Prop} {P : List γ → β → Prop}
    {f : β → α → Except χ β} {as : List α} {before : List γ} {b c : β}
    (hstep : ∀ {before b a b'}, P before b → f b a = .ok b' →
      ∃ result, R a result ∧ P (before ++ [result]) b')
    (h : as.foldlM f b = .ok c) (hb : P before b) :
    ∃ added, List.Forall₂ R as added ∧ P (before ++ added) c := by
  induction as generalizing before b with
  | nil =>
      cases h
      exact ⟨[], .nil, (List.append_nil before).symm ▸ hb⟩
  | cons a as ih =>
      obtain ⟨b', hb', hrest⟩ := foldlM_cons_eq_ok.mp h
      obtain ⟨result, hresult, hb₁⟩ := hstep hb hb'
      obtain ⟨added, hadded, hc⟩ := ih hrest hb₁
      exact ⟨result :: added, .cons hresult hadded, by simpa using hc⟩

/-- What holds at first of no steps, and of a step more after each step, holds
of all steps at the end. -/
theorem foldlM_induction {P : List α → β → Prop} {f : β → α → Except χ β} {as : List α} {b c : β}
    (hstart : P [] b)
    (hstep : ∀ done a b₁ b₂, P done b₁ → f b₁ a = .ok b₂ → P (done ++ [a]) b₂)
    (h : as.foldlM f b = .ok c) : P as c := by
  induction as using List.reverseRecOn generalizing c with
  | nil =>
      cases h
      exact hstart
  | append_singleton as a ih =>
      rw [List.foldlM_append] at h
      obtain ⟨b₁, hb₁, h⟩ := bind_eq_ok.mp h
      obtain ⟨b₂, hb₂, h⟩ := foldlM_cons_eq_ok.mp h
      cases h
      exact hstep as a b₁ _ (ih hb₁) hb₂

theorem bind_eq_error {x : Except χ α} {f : α → Except χ β} {e : χ} :
    x >>= f = .error e ↔ x = .error e ∨ ∃ a, x = .ok a ∧ f a = .error e := by
  cases x with
  | error e' => simp
  | ok a => simp

/-- A loop ends early at one of its steps, after the steps before it. -/
theorem foldlM_eq_error {f : β → α → Except χ β} {as : List α} {b : β} {e : χ} :
    as.foldlM f b = .error e ↔ ∃ done a rest b', as = done ++ a :: rest ∧
      done.foldlM f b = .ok b' ∧ f b' a = .error e := by
  constructor
  · intro h
    induction as generalizing b with
    | nil => cases h
    | cons a as ih =>
        rw [List.foldlM_cons, bind_eq_error] at h
        rcases h with h | ⟨b', hb', hrest⟩
        · exact ⟨[], a, as, b, rfl, rfl, h⟩
        · obtain ⟨done, a', rest, c, rfl, hdone, he⟩ := ih hrest
          exact ⟨a :: done, a', rest, c, rfl, foldlM_cons_eq_ok.mpr ⟨b', hb', hdone⟩, he⟩
  · rintro ⟨done, a, rest, b', rfl, hdone, he⟩
    rw [List.foldlM_append, hdone, ok_bind, List.foldlM_cons, he, error_bind]

theorem foldlM_eq_map {f : List β → α → Except χ (List β)} {g : α → β} {as : List α}
    {bs cs : List β} (hstep : ∀ {bs bs' a}, f bs a = .ok bs' → bs' = bs ++ [g a])
    (h : as.foldlM f bs = .ok cs) : cs = bs ++ as.map g := by
  induction as generalizing bs with
  | nil =>
      cases h
      simp
  | cons a as ih =>
      obtain ⟨bs', hbs', hrest⟩ := foldlM_cons_eq_ok.mp h
      rw [ih hrest, hstep hbs']
      simp

/-! ## Related computations -/

inductive Related (R : α → β → Prop) : Except χ α → Except χ β → Prop
  | error (e : χ) : Related R (.error e) (.error e)
  | ok {a : α} {b : β} (h : R a b) : Related R (.ok a) (.ok b)

namespace Related

variable {γ δ : Type} {R : α → β → Prop} {S : γ → δ → Prop} {x : Except χ α} {y : Except χ β}

theorem bind {f : α → Except χ γ} {g : β → Except χ δ} (h : Related R x y)
    (hfg : ∀ a b, R a b → Related S (f a) (g b)) : Related S (x >>= f) (y >>= g) := by
  cases h with
  | error e => exact .error e
  | ok hab => exact hfg _ _ hab

theorem foldlM {f : γ → α → Except χ γ} {g : δ → β → Except χ δ} {as : List α} {bs : List β}
    (hstep : ∀ {c d a b}, S c d → R a b → Related S (f c a) (g d b))
    (hab : List.Forall₂ R as bs) {c : γ} {d : δ} (hcd : S c d) :
    Related S (as.foldlM f c) (bs.foldlM g d) := by
  induction hab generalizing c d with
  | nil => exact .ok hcd
  | cons hR _ ih =>
      rw [List.foldlM_cons, List.foldlM_cons]
      exact (hstep hcd hR).bind fun c' d' h' ↦ ih h'

theorem ok_left {a : α} (h : Related R (.ok a) y) : ∃ b, y = .ok b ∧ R a b := by
  cases h with
  | ok hab => exact ⟨_, rfl, hab⟩

theorem ok_right {b : β} (h : Related R x (.ok b)) : ∃ a, x = .ok a ∧ R a b := by
  cases h with
  | ok hab => exact ⟨_, rfl, hab⟩

theorem error_iff {e : χ} (h : Related R x y) : x = .error e ↔ y = .error e := by
  cases h <;> simp

theorem with_results (h : Related R x y) :
    Related (fun a b ↦ x = .ok a ∧ y = .ok b ∧ R a b) x y := by
  cases h with
  | error e => exact .error e
  | ok hab => exact .ok ⟨rfl, rfl, hab⟩

theorem mono {R' : α → β → Prop} (h : Related R x y) (hR : ∀ a b, R a b → R' a b) :
    Related R' x y := by
  cases h with
  | error e => exact .error e
  | ok hab => exact .ok (hR _ _ hab)

end Related

/-! ## Equal up to an early end

The first computation does what the second does, unless it ends early in one
of the bad ways. -/

def EqUnless (bad : χ → Prop) (x y : Except χ α) : Prop :=
  (∃ e, bad e ∧ x = .error e) ∨ x = y

namespace EqUnless

variable {bad bad' : χ → Prop} {x y : Except χ α}

theorem refl (x : Except χ α) : EqUnless bad x x := .inr rfl

theorem mono (h : EqUnless bad x y) (hbad : ∀ e, bad e → bad' e) : EqUnless bad' x y := by
  rcases h with ⟨e, he, hx⟩ | h
  · exact .inl ⟨e, hbad e he, hx⟩
  · exact .inr h

theorem eq_of_not (h : EqUnless bad x y) (hbad : ∀ e, ¬ bad e) : x = y := by
  rcases h with ⟨e, he, -⟩ | h
  · exact (hbad e he).elim
  · exact h

theorem ok {a : α} (h : EqUnless bad x y) (hx : x = .ok a) : y = .ok a := by
  rcases h with ⟨e, -, he⟩ | h
  · rw [he] at hx
    cases hx
  · rw [← h, hx]

theorem bind {f g : α → Except χ β} (h : EqUnless bad x y)
    (hfg : ∀ a, EqUnless bad (f a) (g a)) : EqUnless bad (x >>= f) (y >>= g) := by
  rcases h with ⟨e, he, rfl⟩ | rfl
  · exact .inl ⟨e, he, error_bind e f⟩
  · cases x with
    | error e => exact .refl _
    | ok a => exact hfg a

theorem foldlM {f g : β → α → Except χ β} {as : List α}
    (hstep : ∀ b, ∀ a ∈ as, EqUnless bad (f b a) (g b a)) (b : β) :
    EqUnless bad (as.foldlM f b) (as.foldlM g b) := by
  induction as generalizing b with
  | nil => exact .refl _
  | cons a as ih =>
      rw [List.foldlM_cons, List.foldlM_cons]
      exact (hstep b a List.mem_cons_self).bind
        (ih fun b a ha ↦ hstep b a (List.mem_cons_of_mem _ ha))

theorem mapM {f g : α → Except χ β} {as : List α} (h : ∀ a ∈ as, EqUnless bad (f a) (g a)) :
    EqUnless bad (as.mapM f) (as.mapM g) := by
  induction as with
  | nil => exact .refl _
  | cons a as ih =>
      rw [List.mapM_cons, List.mapM_cons]
      refine (h a List.mem_cons_self).bind fun b ↦ ?_
      exact (ih fun a ha ↦ h a (List.mem_cons_of_mem _ ha)).bind fun bs ↦ .refl _

end EqUnless

/-! ## Related up to an early end

The second computation is related to the first, unless the first ends with
`bad`, and then nothing is said of it. -/

def RelatedUnless (bad : χ) (R : α → β → Prop) (x : Except χ α) (y : Except χ β) : Prop :=
  x = .error bad ∨ Related R x y

theorem Related.unless {R : α → β → Prop} {x : Except χ α} {y : Except χ β} (h : Related R x y)
    (bad : χ) : RelatedUnless bad R x y := .inr h

namespace RelatedUnless

variable {γ δ : Type} {bad : χ} {R : α → β → Prop} {S : γ → δ → Prop} {x : Except χ α}
  {y : Except χ β}

theorem bind {f : α → Except χ γ} {g : β → Except χ δ} (h : RelatedUnless bad R x y)
    (hfg : ∀ a b, R a b → RelatedUnless bad S (f a) (g b)) :
    RelatedUnless bad S (x >>= f) (y >>= g) := by
  rcases h with rfl | h
  · exact .inl rfl
  · cases h with
    | error e => exact .inr (.error e)
    | ok hab => exact hfg _ _ hab

theorem foldlM {f : γ → α → Except χ γ} {g : δ → β → Except χ δ} {as : List α} {bs : List β}
    (hstep : ∀ {c d a b}, S c d → R a b → RelatedUnless bad S (f c a) (g d b))
    (hab : List.Forall₂ R as bs) {c : γ} {d : δ} (hcd : S c d) :
    RelatedUnless bad S (as.foldlM f c) (bs.foldlM g d) := by
  induction hab generalizing c d with
  | nil => exact .inr (.ok hcd)
  | cons hR _ ih =>
      rw [List.foldlM_cons, List.foldlM_cons]
      exact (hstep hcd hR).bind fun c' d' h' ↦ ih h'

theorem mono {R' : α → β → Prop} (h : RelatedUnless bad R x y) (hR : ∀ a b, R a b → R' a b) :
    RelatedUnless bad R' x y :=
  h.imp id fun h ↦ h.mono hR

end RelatedUnless

/-! ## Computations that follow each other

One computation follows another on the results of a kind: whenever the
other one has such a result, it has a related one. -/

def Follows (G : α → Prop) (R : α → β → Prop) (x : Except χ α) (y : Except χ β) : Prop :=
  ∀ a, x = .ok a → G a → ∃ b, y = .ok b ∧ R a b

theorem Related.follows {G : α → Prop} {R : α → β → Prop} {x : Except χ α} {y : Except χ β}
    (h : Related R x y) : Follows G R x y := by
  rintro a rfl -
  exact h.ok_left

namespace Follows

variable {γ δ : Type} {G : α → Prop} {G' : γ → Prop} {R : α → β → Prop} {S : γ → δ → Prop}
  {x : Except χ α} {y : Except χ β}

/-- The results before one of the kind have to be of the kind. -/
theorem bind {f : α → Except χ γ} {g : β → Except χ δ} (h : Follows G R x y)
    (hG : ∀ a c, x = .ok a → f a = .ok c → G' c → G a)
    (hfg : ∀ a b, R a b → Follows G' S (f a) (g b)) : Follows G' S (x >>= f) (y >>= g) := by
  intro c hc hkind
  obtain ⟨a, hx, hf⟩ := bind_eq_ok.mp hc
  obtain ⟨b, rfl, hab⟩ := h a hx (hG a c hx hf hkind)
  exact hfg a b hab c hf hkind

theorem foldlM {P : α → β → Prop} {f : γ → α → Except χ γ} {g : δ → β → Except χ δ}
    {as : List α} {bs : List β} (hG : ∀ c a c', f c a = .ok c' → G' c' → G' c)
    (hstep : ∀ {c d a b}, S c d → P a b → Follows G' S (f c a) (g d b))
    (hab : List.Forall₂ P as bs) {c : γ} {d : δ} (hcd : S c d) :
    Follows G' S (as.foldlM f c) (bs.foldlM g d) := by
  induction hab generalizing c d with
  | nil => exact Related.follows (.ok hcd)
  | @cons a b as bs hP _ ih =>
      rw [List.foldlM_cons, List.foldlM_cons]
      refine (hstep hcd hP).bind ?_ fun c' d' h' ↦ ih h'
      -- What is not of the kind stays so through the rest of the loop.
      intro c₁ c₂ _ hrest hkind
      by_contra hno
      exact foldlM_keeps (P := fun c ↦ ¬ G' c)
        (fun _ hc hf hkind' ↦ hc (hG _ _ _ hf hkind')) hrest hno hkind

end Follows

/-! ## Computations that avoid an early end -/

/-- The computation does not end with `bad`, and its result satisfies `P`. -/
def Avoids (bad : χ) (P : α → Prop) : Except χ α → Prop
  | .ok a => P a
  | .error e => e ≠ bad

namespace Avoids

variable {bad : χ} {P : α → Prop} {Q : β → Prop} {x : Except χ α}

@[simp] theorem ok_iff {a : α} : Avoids bad P (.ok a) ↔ P a := Iff.rfl

@[simp] theorem error_iff {e : χ} : Avoids bad P (.error e) ↔ e ≠ bad := Iff.rfl

theorem bind {f : α → Except χ β} (hx : Avoids bad P x) (hf : ∀ a, P a → Avoids bad Q (f a)) :
    Avoids bad Q (x >>= f) := by
  cases x with
  | error e => exact hx
  | ok a => exact hf a hx

/-- The rule for a loop, with an invariant. -/
theorem foldlM {f : β → α → Except χ β} {as : List α}
    (hf : ∀ b a, a ∈ as → Q b → Avoids bad Q (f b a)) {b : β} (hb : Q b) :
    Avoids bad Q (as.foldlM f b) := by
  induction as generalizing b with
  | nil => exact hb
  | cons a as ih =>
      rw [List.foldlM_cons]
      exact (hf b a (by simp) hb).bind
        fun b' hb' ↦ ih (fun b a ha ↦ hf b a (List.mem_cons_of_mem _ ha)) hb'

theorem mapM {f : α → Except χ β} {as : List α}
    (hf : ∀ a ∈ as, Avoids bad (fun _ ↦ True) (f a)) :
    Avoids bad (fun _ ↦ True) (as.mapM f) := by
  induction as with
  | nil => exact trivial
  | cons a as ih =>
      rw [List.mapM_cons]
      exact (hf a (by simp)).bind fun b _ ↦
        (ih fun a ha ↦ hf a (List.mem_cons_of_mem _ ha)).bind fun bs _ ↦ trivial

theorem mono {P' : α → Prop} (hx : Avoids bad P x) (h : ∀ a, P a → P' a) : Avoids bad P' x := by
  cases x with
  | error e => exact hx
  | ok a => exact h a hx

theorem exists_ok [Inhabited χ] (hx : ∀ bad, Avoids bad P x) : ∃ a, x = .ok a ∧ P a := by
  cases x with
  | error e => exact (hx e rfl).elim
  | ok a => exact ⟨a, rfl, hx default⟩

theorem of_ok (hx : Avoids bad P x) {a : α} (h : x = .ok a) : P a := by
  subst h
  exact hx

end Avoids

theorem RelatedUnless.related {bad : χ} {P : α → Prop} {R : α → β → Prop} {x : Except χ α}
    {y : Except χ β} (h : RelatedUnless bad R x y) (hx : Avoids bad P x) : Related R x y := by
  rcases h with rfl | h
  · exact (hx rfl).elim
  · exact h

theorem forall₂_of_mapM {f : α → Except χ β} {as : List α} {bs : List β}
    (h : as.mapM f = .ok bs) : List.Forall₂ (fun a b ↦ f a = .ok b) as bs := by
  induction as generalizing bs with
  | nil =>
      cases h
      exact .nil
  | cons a as ih =>
      rw [List.mapM_cons] at h
      obtain ⟨b, hb, h⟩ := bind_eq_ok.mp h
      obtain ⟨bs', hbs', h⟩ := bind_eq_ok.mp h
      cases h
      exact .cons hb (ih hbs')

theorem mapM_of_forall₂ {f : α → Except χ β} {as : List α} {bs : List β}
    (h : List.Forall₂ (fun a b ↦ f a = .ok b) as bs) : as.mapM f = .ok bs := by
  induction h with
  | nil => rfl
  | cons hab _ ih => rw [List.mapM_cons, hab, ok_bind, ih, ok_bind, pure_eq_ok]

theorem mapM_eq_map {f : α → Except χ β} {g : α → β} {as : List α} {bs : List β}
    (hf : ∀ a ∈ as, ∀ b, f a = .ok b → b = g a) (h : as.mapM f = .ok bs) : bs = as.map g := by
  have hrel := forall₂_of_mapM h
  clear h
  induction hrel with
  | nil => rfl
  | cons hab _ ih =>
      rw [List.map_cons, hf _ (by simp) _ hab, ih fun a ha ↦ hf a (List.mem_cons_of_mem _ ha)]

theorem map_eq_map_of_mapM {γ : Type} {f : α → Except χ β} {g : β → γ} {g' : α → γ} {as : List α}
    {bs : List β} (hf : ∀ a b, f a = .ok b → g b = g' a) (h : as.mapM f = .ok bs) :
    bs.map g = as.map g' := by
  have hrel := forall₂_of_mapM h
  clear h
  induction hrel with
  | nil => rfl
  | cons hab _ ih => rw [List.map_cons, List.map_cons, hf _ _ hab, ih]

theorem exists_of_mem_mapM {f : α → Except χ β} {as : List α} {bs : List β} {b : β}
    (h : as.mapM f = .ok bs) (hb : b ∈ bs) : ∃ a ∈ as, f a = .ok b := by
  have hrel := forall₂_of_mapM h
  clear h
  induction hrel with
  | nil => simp at hb
  | @cons a b' as bs hab _ ih =>
      rcases List.mem_cons.mp hb with rfl | hb
      · exact ⟨a, by simp, hab⟩
      · obtain ⟨a', ha', h⟩ := ih hb
        exact ⟨a', List.mem_cons_of_mem _ ha', h⟩

theorem exists_result_of_mem {f : α → Except χ β} {as : List α} {bs : List β} {a : α}
    (h : as.mapM f = .ok bs) (ha : a ∈ as) : ∃ b ∈ bs, f a = .ok b := by
  have hrel := forall₂_of_mapM h
  clear h
  induction hrel with
  | nil => simp at ha
  | @cons a' b as bs hab _ ih =>
      rcases List.mem_cons.mp ha with rfl | ha
      · exact ⟨b, by simp, hab⟩
      · obtain ⟨b', hb', h⟩ := ih ha
        exact ⟨b', List.mem_cons_of_mem _ hb', h⟩

theorem getElem?_of_mapM {f : α → Except χ β} {as : List α} {bs : List β}
    (h : as.mapM f = .ok bs) (i : ℕ) : Option.Rel (fun a b ↦ f a = .ok b) as[i]? bs[i]? := by
  have hrel := forall₂_of_mapM h
  clear h
  induction hrel generalizing i with
  | nil => exact .none
  | cons hab _ ih =>
      cases i with
      | zero => simpa using Option.Rel.some hab
      | succ i => simpa using ih i

theorem exists_mapM_iff {f : α → Except χ β} {as : List α} :
    (∃ bs, as.mapM f = .ok bs) ↔ ∀ a ∈ as, ∃ b, f a = .ok b := by
  constructor
  · rintro ⟨bs, h⟩ a ha
    obtain ⟨b, -, hb⟩ := exists_result_of_mem h ha
    exact ⟨b, hb⟩
  · intro h
    induction as with
    | nil => exact ⟨[], rfl⟩
    | cons a as ih =>
        obtain ⟨b, hb⟩ := h a (by simp)
        obtain ⟨bs, hbs⟩ := ih fun a ha ↦ h a (List.mem_cons_of_mem _ ha)
        exact ⟨b :: bs, by rw [List.mapM_cons, hb, ok_bind, hbs, ok_bind, pure_eq_ok]⟩

end Exits
