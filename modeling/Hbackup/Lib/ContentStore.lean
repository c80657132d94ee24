import Mathlib.Data.Set.Function
import Mathlib.Logic.Relation

/-!
# Stores addressed by content

An archive keeps contents under their digests, and has roots, each of which needs the contents with
certain digests.  Its steps add contents, make and drop roots, and take contents away that no root
needs or that are not what their key says.  In a sound archive what a root needs is there, with the
right digest; every run keeps this (`Runs.sound`), and so does every system whose steps are runs of
an archive (`Runs.of_steps`).
-/

namespace ContentStore

variable {Name Key Content σ : Type*}

/-- What is stored, and what each root needs. -/
structure Archive (Name Key Content : Type*) where
  objects : Key → Option Content
  roots : Name → Option (Set Key)

namespace Archive

/-- Some root needs the content with the key `k`. -/
def Needs (A : Archive Name Key Content) (k : Key) : Prop :=
  ∃ n keys, A.roots n = some keys ∧ k ∈ keys

/-- What is stored has the right digest, and what a root needs is stored. -/
structure Sound (digest : Content → Key) (A : Archive Name Key Content) : Prop where
  digests : ∀ k c, A.objects k = some c → digest c = k
  complete : ∀ k, A.Needs k → (A.objects k).isSome

end Archive

variable {digest : Content → Key} {A A' A'' : Archive Name Key Content}

/-- The steps of an archive. -/
inductive Step (digest : Content → Key) (A : Archive Name Key Content) :
    Archive Name Key Content → Prop
  /-- Contents are added, or replaced by others with the same digest. -/
  | store (objects : Key → Option Content)
      (hnew : ∀ k c, objects k = some c → A.objects k = some c ∨ digest c = k)
      (hold : ∀ k, (A.objects k).isSome → (objects k).isSome) : Step digest A { A with objects }
  /-- Roots are dropped, or made of what is stored. -/
  | publish (roots : Name → Option (Set Key))
      (hroots : ∀ n keys, roots n = some keys →
        A.roots n = some keys ∨ ∀ k ∈ keys, (A.objects k).isSome) : Step digest A { A with roots }
  /-- Contents that no root needs are taken away. -/
  | collect (objects : Key → Option Content)
      (hkept : ∀ k, objects k = A.objects k ∨ objects k = none ∧ ¬ A.Needs k) :
      Step digest A { A with objects }
  /-- Contents with the wrong digest are taken away. -/
  | evict (objects : Key → Option Content)
      (hkept : ∀ k, objects k = A.objects k ∨
        objects k = none ∧ ∀ c, A.objects k = some c → digest c ≠ k) : Step digest A { A with objects }

/-- **A step keeps an archive sound.** -/
theorem Step.sound (h : Step digest A A') (hA : A.Sound digest) : A'.Sound digest := by
  cases h with
  | store objects hnew hold =>
    refine ⟨fun k c hc => ?_, fun k hk => hold k (hA.complete k hk)⟩
    exact (hnew k c hc).elim (hA.digests k c) id
  | publish roots hroots =>
    refine ⟨hA.digests, ?_⟩
    rintro k ⟨n, keys, hn, hk⟩
    rcases hroots n keys hn with hold | hstored
    · exact hA.complete k ⟨n, keys, hold, hk⟩
    · exact hstored k hk
  | collect objects hkept =>
    refine ⟨fun k c hc => ?_, fun k hk => ?_⟩
    · rcases hkept k with hsame | ⟨hnone, -⟩
      · exact hA.digests k c (hsame ▸ hc)
      · rw [show objects k = some c from hc] at hnone
        cases hnone
    · change (objects k).isSome
      rw [(hkept k).resolve_right fun h => h.2 hk]
      exact hA.complete k hk
  | evict objects hkept =>
    refine ⟨fun k c hc => ?_, fun k hk => ?_⟩
    · rcases hkept k with hsame | ⟨hnone, -⟩
      · exact hA.digests k c (hsame ▸ hc)
      · rw [show objects k = some c from hc] at hnone
        cases hnone
    · change (objects k).isSome
      obtain ⟨c, hc⟩ := Option.isSome_iff_exists.mp (hA.complete k hk)
      -- what is there is right
      rw [(hkept k).resolve_right fun h => h.2 c hc (hA.digests k c hc)]
      exact hA.complete k hk

/-- Any number of steps. -/
abbrev Runs (digest : Content → Key) (A A' : Archive Name Key Content) : Prop :=
  Relation.ReflTransGen (Step digest) A A'

/-- **A run keeps an archive sound.** -/
theorem Runs.sound (h : Runs digest A A') (hA : A.Sound digest) : A'.Sound digest := by
  induction h with
  | refl => exact hA
  | tail _ hstep ih => exact hstep.sound ih

/-- **A system whose steps are runs of an archive** is one whose runs are. -/
theorem Runs.of_steps {R : σ → σ → Prop} {Inv : σ → Prop} {archive : σ → Archive Name Key Content}
    (hstep : ∀ s s', Inv s → R s s' → Inv s' ∧ Runs digest (archive s) (archive s')) {s s' : σ}
    (hs : Inv s) (h : Relation.ReflTransGen R s s') :
    Inv s' ∧ Runs digest (archive s) (archive s') := by
  induction h with
  | refl => exact ⟨hs, .refl⟩
  | tail _ hlast ih =>
    obtain ⟨hinv, hrun⟩ := hstep _ _ ih.1 hlast
    exact ⟨hinv, ih.2.trans hrun⟩

end ContentStore
