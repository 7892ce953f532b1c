import CharacterScript.Proofs.Substitution
import Mathlib.Data.List.Chain
import Mathlib.Data.List.Perm.Subperm
import Mathlib.Logic.Relation

/-!
# Definitions that mention each other in a circle

The mentions between the texts of a table make a graph. A definition from which mentions lead into a
circle has no expansion, and all that stands in the way of looking for one forever is the budget. It
is a coarse means: what was expanded before is not expanded again, and the text in which the next
definition is looked for is not the one that was written down. Neither makes a difference. What is
left to be replaced in a text is always a word of the text as it was written (`PutIn.left`), so a
failure goes along mentions, one for each unit of the budget (`fails_of_expand`); and what a
definition is expanded to is an expansion, which a circle does not have (`not_circular_of_expands`).

## Two directions

A circle is caught because a definition in one has no expansion: nothing finite is put in for all
of its words. That the search ends with this very problem, and not with another one or none, comes
from the budget. In the other direction, a failure comes with a chain of mentions that is as long
as the budget, so where all chains are shorter there is no such failure. Texts that cannot be read
are a problem of their own and are told apart from these.
-/

namespace CharacterScript

open Relation Running

namespace Expansion

variable {t t' u : Table Define} {n i j k : Nat}

/-! ## The graph of mentions

Places are the nodes, since a table has each name once. The graph is that of the texts as they
were written, and expanding does not change it. -/

/-- The text of the definition at one place mentions the definition at the other. -/
def Mentions (t : Table Define) (i j : Nat) : Prop :=
  ∃ name d other d', t.at? i = some (name, d) ∧ t.at? j = some (other, d') ∧
    containsWord d.text other = true

/-- Mentions lead from the definition at this place into a circle. -/
def Circular (t : Table Define) (i : Nat) : Prop :=
  ∃ j, ReflTransGen (Mentions t) i j ∧ TransGen (Mentions t) j j

theorem mentions_iff : Mentions t i j ↔
    ((t.at? i).any fun (_, d) ↦ (t.at? j).any fun (other, _) ↦ containsWord d.text other) =
      true := by
  simp only [Mentions, Option.any_eq_true, Prod.exists]
  constructor
  · rintro ⟨name, d, other, d', hd, hd', hcontains⟩
    exact ⟨name, d, hd, other, d', hd', hcontains⟩
  · rintro ⟨name, d, hd, other, d', hd', hcontains⟩
    exact ⟨name, d, other, d', hd, hd', hcontains⟩

instance : DecidableRel (Mentions t) :=
  fun _ _ ↦ decidable_of_iff _ mentions_iff.symm

theorem Mentions.lt_size (h : Mentions t i j) : j < t.size := by
  obtain ⟨-, -, other, d', -, hd', -⟩ := h
  exact (Array.getElem?_eq_some_iff.1 hd').1

/-- A way into a circle goes on. -/
theorem Circular.exists_mentions (h : Circular t i) : ∃ j, Mentions t i j ∧ Circular t j := by
  obtain ⟨k, hpath, hcircle⟩ := h
  obtain rfl | ⟨j, hstep, hpath⟩ := hpath.cases_head
  · obtain ⟨j, hstep, hback⟩ := TransGen.head'_iff.1 hcircle
    exact ⟨j, hstep, i, hback, hcircle⟩
  · exact ⟨j, hstep, k, hpath, hcircle⟩

/-- Without a circle a chain of mentions never comes back to a definition. -/
theorem nodup_of_isChain {chain : List Nat} (hcircular : ¬Circular t i)
    (hhead : chain.head? = some i) (h : chain.IsChain (Mentions t)) : chain.Nodup := by
  obtain ⟨rest, rfl⟩ := List.head?_eq_some_iff.1 hhead
  have hpairs : (i :: rest).Pairwise (TransGen (Mentions t)) :=
    List.isChain_iff_pairwise.1 (h.imp fun _ _ ↦ .single)
  have hreached : ∀ j ∈ i :: rest, ReflTransGen (Mentions t) i j := fun j hj ↦ by
    obtain rfl | hj := List.mem_cons.1 hj
    · exact .refl
    · exact (List.rel_of_pairwise_cons hpairs hj).to_reflTransGen
  refine hpairs.imp_of_mem fun {j k} hj _ hlater heq ↦ hcircular ⟨j, hreached j hj, ?_⟩
  rwa [← heq] at hlater

/-- Such a chain takes no more definitions than there are. -/
theorem length_le_size {chain : List Nat} (hi : i < t.size) (hhead : chain.head? = some i)
    (h : chain.IsChain (Mentions t)) (hnodup : chain.Nodup) : chain.length ≤ t.size := by
  have hlt : ∀ j ∈ chain, j < t.size := by
    clear hnodup
    induction chain generalizing i with
    | nil => exact nofun
    | cons j rest ih =>
      obtain rfl := Option.some.inj hhead
      refine List.forall_mem_cons.2 ⟨hi, ?_⟩
      cases rest with
      | nil => exact nofun
      | cons k rest =>
        obtain ⟨hjk, hrest⟩ := List.isChain_cons_cons.1 h
        exact ih hjk.lt_size rfl hrest
  have hle := (List.subperm_of_subset hnodup fun j hj ↦ List.mem_range.2 (hlt j hj)).length_le
  rwa [List.length_range] at hle

theorem SameTexts.symm (h : SameTexts t t') : SameTexts t' t :=
  Eq.symm h

theorem SameTexts.at?_reset (h : SameTexts t t') {name : String} {d : Define}
    (hd : t.at? i = some (name, d)) :
    ∃ d', t'.at? i = some (name, d') ∧ d'.reset = d.reset := by
  have hat : (t'.map Define.reset).at? i = (t.map Define.reset).at? i := by rw [h]
  rw [Table.at?_map, Table.at?_map, hd, Option.map_some, Option.map_eq_some_iff] at hat
  obtain ⟨⟨name', d'⟩, hd', heq⟩ := hat
  obtain ⟨rfl, hreset⟩ := Prod.mk.inj heq
  exact ⟨d', hd', hreset⟩

theorem SameTexts.mentions (h : SameTexts t t') (hij : Mentions t i j) : Mentions t' i j := by
  obtain ⟨name, d, other, d', hd, hd', hcontains⟩ := hij
  obtain ⟨e, he, htext⟩ := h.at? hd
  obtain ⟨e', he', -⟩ := h.at? hd'
  exact ⟨name, e, other, e', he, he', htext.symm ▸ hcontains⟩

theorem texts_of_at? {name : String} {d : Define} (hd : t.at? i = some (name, d)) :
    texts t name = some d.text :=
  texts_of_get? (Table.get?_eq_some_iff.2 ⟨i, hd⟩)

/-- A text with an expansion mentions nothing that leads into a circle. -/
theorem not_circular_of_expands (hnames : ∀ name ∈ t.names, IsName name) {text out w : String}
    {d : Define} (h : Expands (texts t) text out) (hw : w ∈ wordsOf text)
    (hd : t.at? i = some (w, d)) : ¬Circular t i := by
  induction h generalizing w i d with
  | @intro text f hdefined hother ih =>
    intro hcircular
    obtain ⟨j, ⟨_, e, other, e', he, he', hcontains⟩, hcircular⟩ := hcircular.exists_mentions
    obtain ⟨rfl, rfl⟩ := Prod.mk.inj (Option.some.inj (hd.symm.trans he))
    have hother : IsName other :=
      hnames other (Table.mem_names_iff.2 ⟨e', Table.get?_eq_some_iff.2 ⟨j, he'⟩⟩)
    exact ih w hw d.text (texts_of_at? hd) ((containsWord_iff hother).1 hcontains) he' hcircular

theorem not_circular_of_expanded (ht : Consistent t) (h : Expanded t i) : ¬Circular t i := by
  intro hcircular
  obtain ⟨j, ⟨name, d, other, d', hd, hd', hcontains⟩, hcircular⟩ := hcircular.exists_mentions
  obtain ⟨e, he⟩ := Option.ne_none_iff_exists'.1 (h hd)
  have hother : IsName other :=
    ht.isName other (Table.mem_names_iff.2 ⟨d', Table.get?_eq_some_iff.2 ⟨j, hd'⟩⟩)
  have hexpands := ht.expands (Table.get?_eq_some_iff.2 ⟨i, hd⟩) he
  exact not_circular_of_expands ht.isName hexpands ((containsWord_iff hother).1 hcontains) hd'
    hcircular

theorem Circular.of_sameTexts (htexts : SameTexts t t') (h : Circular t i) : Circular t' i := by
  obtain ⟨j, hpath, hcircle⟩ := h
  have hmono : ∀ i j, Mentions t i j → Mentions t' i j := fun _ _ ↦ htexts.mentions
  exact ⟨j, ReflTransGen.mono hmono _ _ hpath, TransGen.mono hmono _ _ hcircle⟩

/-! ## Why an expansion fails

A failure is handed on through all the definitions that were waiting for it, each with one less to
spend than the one before. -/

/-- The ways in which expanding the definition at a place with a budget can fail. -/
inductive Fails (t : Table Define) : Nat → Nat → Problem → Prop
  /-- Nothing is left to spend. -/
  | spent {i name d} (hd : t.at? i = some (name, d)) : Fails t 0 i (.recursion d.ident.pos name)
  /-- The expansion of the text is no expression. -/
  | unread {n i name d out e} (hd : t.at? i = some (name, d)) (hout : Expands (texts t) d.text out)
    (hread : read name d.ident.pos out = .error e) : Fails t (n + 1) i e
  /-- A definition that the text mentions fails, with one less to spend. -/
  | mentioned {n i j e} (hij : Mentions t i j) (hj : Fails t n j e) : Fails t (n + 1) i e

theorem Fails.of_sameTexts {e : Problem} (htexts : SameTexts t t') (h : Fails t' n i e) :
    Fails t n i e := by
  induction h with
  | spent hd =>
    obtain ⟨d', hd', hreset⟩ := htexts.symm.at?_reset hd
    rw [← (Define.mk.inj hreset).1]
    exact .spent hd'
  | unread hd hout hread =>
    obtain ⟨d', hd', hreset⟩ := htexts.symm.at?_reset hd
    obtain ⟨hident, -, -, htext, -⟩ := Define.mk.inj hreset
    rw [← hident] at hread
    rw [← htext, htexts.texts] at hout
    exact .unread hd' hout hread
  | mentioned hij hj ih => exact .mentioned (htexts.symm.mentions hij) ih

section

variable {expandOther : Nat → EStateM Problem (Table Define) Unit} {text : String} {e : Problem}

/-- Putting one definition in only fails when it cannot be expanded. -/
theorem substitute_eq_error (h : substitute expandOther text i t = .error e t') :
    ∃ name d, t.at? i = some (name, d) ∧ containsWord text name = true ∧
      expandOther i t = .error e t' := by
  rw [substitute, get_bind] at h
  cases hd : t.at? i with
  | none =>
    rw [hd] at h
    exact absurd h pure_ne_error
  | some entry =>
    obtain ⟨name, d⟩ := entry
    rw [hd] at h
    dsimp only at h
    split at h
    next hcontains =>
      split at h
      next =>
        refine ⟨name, d, rfl, hcontains, ?_⟩
        cases hx : expandOther i t with
        | error e' t₁ =>
          rw [bind_of_error hx] at h
          cases h
          rfl
        | ok _ t₁ =>
          rw [bind_of_ok hx, get_bind] at h
          cases hsome : (t₁.at? i).bind (·.2.expansion) <;>
          · rw [hsome] at h
            exact absurd h pure_ne_error
      next =>
        rw [get_bind] at h
        cases hsome : (t.at? i).bind (·.2.expansion) <;>
        · rw [hsome] at h
          exact absurd h pure_ne_error
    next => exact absurd h pure_ne_error

/-- Whatever has been put in before, the definition that cannot be expanded is one that the text
mentions. -/
theorem foldlM_substitute_eq_error (hother : Expanding expandOther) {places : List Nat}
    (ht : Consistent t) (h : places.foldlM (substitute expandOther) text t = .error e t') :
    ∃ j name d u, t.at? j = some (name, d) ∧ containsWord text name = true ∧ Advances t u ∧
      expandOther j u = .error e t' := by
  induction places generalizing text t with
  | nil => exact absurd h pure_ne_error
  | cons i places ih =>
    rw [List.foldlM_cons] at h
    cases hfirst : substitute expandOther text i t with
    | error e' t₁ =>
      rw [bind_of_error hfirst] at h
      cases h
      obtain ⟨name, d, hd, hcontains, hexpand⟩ := substitute_eq_error hfirst
      exact ⟨i, name, d, t, hd, hcontains, .refl ht, hexpand⟩
    | ok mid t₁ =>
      rw [bind_of_ok hfirst] at h
      obtain ⟨hadvances, hput⟩ := putIn_substitute hother ht hfirst
      obtain ⟨j, name, d, u, hd, hcontains, hadvances', hexpand⟩ := ih hadvances.consistent h
      obtain ⟨d', hd', -⟩ := hadvances.texts.symm.at? hd
      have hname : IsName name :=
        ht.isName name (Table.mem_names_iff.2 ⟨d', Table.get?_eq_some_iff.2 ⟨j, hd'⟩⟩)
      -- the name was not brought in by what was put in, so it was there before
      have hword : name ∈ wordsOf text :=
        (hput.left ((containsWord_iff hname).1 hcontains)
          (by rw [texts_of_at? hd']; exact nofun)).1
      exact ⟨j, name, d', u, hd', (containsWord_iff hname).2 hword, hadvances.trans hadvances',
        hexpand⟩

end

theorem fails_of_expand {e : Problem} (ht : Consistent t) (h : expand n i t = .error e t') :
    Fails t n i e := by
  induction n generalizing i t t' with
  | zero =>
    rw [expand, get_bind] at h
    cases hd : t.at? i with
    | none =>
      rw [hd] at h
      exact absurd h pure_ne_error
    | some entry =>
      rw [hd] at h
      cases h
      exact .spent hd
  | succ n ih =>
    rw [expand, get_bind] at h
    cases hd : t.at? i with
    | none =>
      rw [hd] at h
      exact absurd h pure_ne_error
    | some entry =>
      obtain ⟨name, d⟩ := entry
      rw [hd] at h
      dsimp only at h
      rw [get_bind] at h
      -- it fails with a definition that is mentioned, or the text put together does not read
      cases hfold : (List.range t.size).foldlM (substitute (expand n)) d.text t with
      | error e' t₁ =>
        rw [bind_of_error hfold] at h
        cases h
        obtain ⟨j, other, d', u, hd', hcontains, hadvances, hexpand⟩ :=
          foldlM_substitute_eq_error (expanding_expand n) ht hfold
        exact .mentioned ⟨name, d, other, d', hd, hd', hcontains⟩
          (.of_sameTexts hadvances.texts (ih hadvances.consistent hexpand))
      | ok out t₁ =>
        rw [bind_of_ok hfold] at h
        obtain ⟨-, hput⟩ := putIn_foldlM (expanding_expand n) ht hfold
        cases hread : read name d.ident.pos out with
        | error e' =>
          rw [hread] at h
          cases h
          exact .unread hd hput.expands hread
        | ok e' =>
          rw [hread] at h
          exact absurd h modify_ne_error

/-- A definition that mentions lead to has an expansion that does not read, and the problem is
this. -/
def Unread (t : Table Define) (i : Nat) (e : Problem) : Prop :=
  ∃ j name d out, ReflTransGen (Mentions t) i j ∧ t.at? j = some (name, d) ∧
    Expands (texts t) d.text out ∧ read name d.ident.pos out = .error e

/-- A chain of mentions from one place to another. -/
structure Chain (t : Table Define) (i j : Nat) (places : List Nat) : Prop where
  /-- It starts at `i`. -/
  head : places.head? = some i
  /-- It ends at `j`. -/
  last : places.getLast? = some j
  /-- Each text on the way mentions the next definition. -/
  mentions : places.IsChain (Mentions t)

theorem Chain.reflTransGen {places : List Nat} (h : Chain t i j places) :
    ReflTransGen (Mentions t) i j := by
  obtain ⟨rest, rfl⟩ := List.head?_eq_some_iff.1 h.head
  refine List.relationReflTransGen_of_exists_isChain_cons rest h.mentions (Option.some.inj ?_)
  rw [← List.getLast?_eq_some_getLast]
  exact h.last

/-- A failure of an expansion is a text that does not read, or a chain of mentions that takes more
definitions than there are to spend; the last one of the chain is blamed. -/
theorem Fails.unread_or_chain {e : Problem} (h : Fails t n i e) :
    Unread t i e ∨ ∃ places j name d, Chain t i j places ∧ places.length = n + 1 ∧
      t.at? j = some (name, d) ∧ e = .recursion d.ident.pos name := by
  induction h with
  | @spent i name d hd => exact .inr ⟨[i], i, name, d, ⟨rfl, rfl, .singleton i⟩, rfl, hd, rfl⟩
  | @unread n i name d out e hd hout hread => exact .inl ⟨i, name, d, out, .refl, hd, hout, hread⟩
  | @mentioned n i j e hij hj ih =>
    obtain ⟨k, name, d, out, hpath, hd, hout, hread⟩ | ⟨places, k, name, d, hchain, hlength, hd, he⟩
      := ih
    · exact .inl ⟨k, name, d, out, .head hij hpath, hd, hout, hread⟩
    · obtain ⟨rest, rfl⟩ := List.head?_eq_some_iff.1 hchain.head
      refine .inr ⟨i :: j :: rest, k, name, d, ⟨rfl, ?_, ?_⟩, ?_, hd, he⟩
      · rw [List.getLast?_cons_cons]
        exact hchain.last
      · exact List.isChain_cons_cons.2 ⟨hij, hchain.mentions⟩
      · rw [List.length_cons, hlength]

theorem read_ne_recursion {name out : String} {pos : Position} {ident : Position}
    {blamed : String} :
    read name pos out ≠ .error (.recursion ident blamed) := by
  rw [read]
  split
  · simp
  · split <;> simp

theorem consistent_of_new (hnames : ∀ name ∈ t.names, IsName name)
    (hnew : ∀ d ∈ t.values, d.expansion = none) : Consistent t := by
  refine ⟨hnames, fun {name d e} hd he ↦ ?_⟩
  obtain ⟨i, hi⟩ := Table.get?_eq_some_iff.1 hd
  rw [hnew d (Table.mem_values_iff.2 ⟨name, hd⟩)] at he
  exact nomatch he

end Expansion

open Expansion

/-- The budget catches every circle and nothing that is legal. A definition from which mentions lead
into a circle fails: as recursive, unless a definition on the way has an expansion that does not
read. And when no circle is reached and no chain of mentions takes more than 100 definitions, what
fails does so because an expansion does not read, and never as recursive. -/
theorem circles_are_caught {t : Table Define} (hnames : ∀ name ∈ t.names, IsName name)
    (hnew : ∀ d ∈ t.values, d.expansion = none) (i : Nat) :
    (Circular t i → ∃ e t', expand budget i t = .error e t' ∧
      (Unread t i e ∨ ∃ j name d, ReflTransGen (Mentions t) i j ∧ t.at? j = some (name, d) ∧
        e = .recursion d.ident.pos name)) ∧
    (¬Circular t i →
      (∀ places : List Nat, places.head? = some i → places.IsChain (Mentions t) → places.Nodup →
        places.length ≤ 100) →
      ∀ e t', expand budget i t = .error e t' →
        Unread t i e ∧ ∀ pos name, e ≠ .recursion pos name) := by
  have ht := consistent_of_new hnames hnew
  refine ⟨fun hcircular ↦ ?_, fun hcircular hlong e t' h ↦ ?_⟩
  · cases h : expand budget i t with
    | ok _ t' =>
      obtain ⟨hadvances, hi⟩ := expanding_expand budget ht h
      exact absurd (hcircular.of_sameTexts hadvances.texts)
        (not_circular_of_expanded hadvances.consistent hi)
    | error e t' =>
      refine ⟨e, t', rfl, (fails_of_expand ht h).unread_or_chain.imp_right ?_⟩
      rintro ⟨places, j, name, d, hchain, -, hd, he⟩
      exact ⟨j, name, d, hchain.reflTransGen, hd, he⟩
  · obtain hunread | ⟨places, j, name, d, hchain, hlength, -, -⟩ :=
      (fails_of_expand ht h).unread_or_chain
    · obtain ⟨j, name, d, out, -, -, -, hread⟩ := id hunread
      exact ⟨hunread, fun pos blamed he ↦ read_ne_recursion (he ▸ hread)⟩
    -- the chain is too long
    · have hnodup := nodup_of_isChain hcircular hchain.head hchain.mentions
      have hle := hlong places hchain.head hchain.mentions hnodup
      rw [hlength] at hle
      exact absurd hle (by decide)

namespace Sample

/-- A circle, a definition that leads into it, and two that have nothing to do with it. -/
def circular : Table Define :=
  .ofList <| [("AREA", "UNIT*RADIUS"), ("RADIUS", "WIDTH/2"), ("WIDTH", "UNIT+2*RADIUS"),
    ("UNIT", "1"), ("HEIGHT", "(UNIT+UNITS)")].map fun (name, text) ↦
    (name, ⟨⟨.define, name, default⟩, 1, 0, text, none⟩)

end Sample

/-- In the sample, the first definition leads into a circle and is recursive, and the last one is
legal. -/
theorem circles_are_caught_sample :
    Circular Sample.circular 0 ∧ ¬Circular Sample.circular 4 ∧
      (∃ e t', expand budget 0 Sample.circular = .error e t' ∧
        (Unread Sample.circular 0 e ∨ ∃ j name d,
          ReflTransGen (Mentions Sample.circular) 0 j ∧
          Sample.circular.at? j = some (name, d) ∧ e = .recursion d.ident.pos name)) ∧
      ∀ pos name t', expand budget 4 Sample.circular ≠ .error (.recursion pos name) t' := by
  have hnames : ∀ name ∈ Sample.circular.names, IsName name := by decide +kernel
  have hnew : ∀ d ∈ Sample.circular.values, d.expansion = none := by
    simp only [← Option.isNone_iff_eq_none]
    decide +kernel
  have hcircular : Circular Sample.circular 0 :=
    ⟨1, .single (by decide +kernel),
      .head (b := 2) (by decide +kernel) (.single (by decide +kernel))⟩
  have hlegal : ¬Circular Sample.circular 4 := by
    have h4 : ∀ j < Sample.circular.size, Mentions Sample.circular 4 j → j = 3 := by decide +kernel
    have h3 : ∀ j < Sample.circular.size, ¬Mentions Sample.circular 3 j := by decide +kernel
    intro h
    obtain ⟨j, hj, h⟩ := h.exists_mentions
    obtain rfl := h4 j hj.lt_size hj
    obtain ⟨k, hk, -⟩ := h.exists_mentions
    exact h3 k hk.lt_size hk
  refine ⟨hcircular, hlegal, (circles_are_caught hnames hnew 0).1 hcircular,
    fun pos name t' h ↦ ?_⟩
  refine ((circles_are_caught hnames hnew 4).2 hlegal (fun places hhead hchain hnodup ↦ ?_) _ _ h).2
    pos name rfl
  exact (length_le_size (by decide +kernel) hhead hchain hnodup).trans (by decide +kernel)

end CharacterScript
