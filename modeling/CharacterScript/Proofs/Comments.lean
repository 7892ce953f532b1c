import CharacterScript.Proofs.Comments.Files
import CharacterScript.Proofs.LaterDefinitions

/-!
# Comments do not count

A comment that the lexer skips can be replaced by a space and its line feeds: the layer is accepted
or refused as before, with the same image or the same code (`comment_insignificant`).

## Text that is kept

Text that is kept as it is written is the exception. A calculation does not know comments. A
definition keeps the comments in its text, and they are text wherever the definition is put: what a
comment mentions is put into it, and it may be put into a string, into another comment or into a
calculation. So the comment has to stand in no calculation, and the definitions have to come to the
same without it (`SkippedComment.KeepsDefinitions`). They do if it stands in none of them
(`SkippedComment.keepsDefinitions`). And an `else` is joined with an `if` only across spaces, so a
comment between the two may be what keeps them apart. Each of the three makes a difference
(`comment_counts`).

## The comparison

The texts with and without the comment are read as the same items, moved along, and with
definitions that are worded differently. The second is what costs something. Expanding goes
through the words of a text and puts definitions in, so a comment that mentions a definition can
make a circle; that a comment mentions nothing that matters is what `KeepsDefinitions` says. With
expansions that are read alike the rest of the layer is compiled in step.
-/

namespace CharacterScript

open Expansion Relation Running

namespace SkippedComment

variable {source : String} (C : SkippedComment source)

/-- The comment stands in the argument of a calculation, in a body or in a definition. -/
def InCalculation : Prop :=
  ∃ ps, WrittenAs source ps ∧ ∃ i ∈ ps, ∃ part ∈ i.parts, C.Within part

/-- The definitions of the next layer come to the same with the comment as without it. Their texts
mention the same definitions, or all definitions can be expanded in both cases. What they are
expanded to differs in comments that have no part in what it reads as. And the calculations of
bodies mention only definitions that are expanded to the same. -/
structure KeepsDefinitions (s : Session) : Prop where
  /-- The texts mention the same definitions, so they run into the same circles, or all of them can
  be expanded. -/
  mention : ∀ {items items'}, ReadsAs source items → ReadsAs C.result items' →
    MentionAlike (s.textsWith items) (s.textsWith items') ∨
      (s.nextLayer source).Expandable items (Session.deepen s.program) ∧
        (s.nextLayer C.result).Expandable items' (Session.deepen s.program)
  /-- The expansions are the same, up to comments that are blanked. -/
  expand : ∀ {items items'}, ReadsAs source items → ReadsAs C.result items' →
    ExpandAlike (EqvGen Blanked) (s.textsWith items) (s.textsWith items')
  /-- What calculations in bodies mention is expanded to the very same text. -/
  calculations : ∀ {items items'}, ReadsAs source items → ReadsAs C.result items' →
    ∀ d, .callable d ∈ items → ∀ text ∈ d.body.calculations,
      SameExpansions (s.textsWith items) (s.textsWith items') text

/-- The reworded items define what the items of the new text do. -/
theorem textsWith_reworded (s : Session) (ps : List ItemPhrase) : s.textsWith (C.reworded ps)
    = s.textsWith ((ps.map (ItemPhrase.edit C.edit)).map (ItemPhrase.tree C.result)) := by
  rw [Session.textsWith, Session.textsWith, Layer.declaredTexts, Layer.declaredTexts, reworded,
    List.map_map, List.filterMap_map, List.filterMap_map]
  congr 2
  funext i
  cases i <;> rfl

/-! ## Where a comment stands

A comment that stands in no definition leaves all texts as they are, so that nothing has to be
asked of it. This is the case of nearly all comments. -/

theorem not_inCalculation {ts : List Lexeme} (hlex : lex source = .ok ts)
    (hts : ∀ l ∈ ts, l.token ≠ .calcWord) : ¬ C.InCalculation := by
  rintro ⟨ps, hps, i, hi, part, hpart, hwithin⟩
  exact C.not_within hts (hps.parts_sublist hlex) part (List.mem_flatMap.2 ⟨i, hi, hpart⟩) hwithin

/-- The comment stands in the text of a definition. -/
def InDefinition : Prop :=
  ∃ ps word name nameSpan body, WrittenAs source ps ∧ .define word name nameSpan body ∈ ps ∧
    (body.tree source).span.start ≤ C.start ∧ C.stop ≤ (body.tree source).span.stop

/-- The items define what they did if the comment stands in no definition. -/
theorem definition?_edit (helse : ¬ C.PartsElseIf) (hout : ¬ C.InDefinition) {ps : List ItemPhrase}
    (hps : WrittenAs source ps) {i : ItemPhrase} (hi : i ∈ ps) :
    ((i.edit C.edit).tree C.result).definition? = (i.tree source).definition? := by
  cases i with
  | directive | global | callable => rfl
  | define word name nameSpan body =>
    have ⟨stop, hlex, _⟩ := hps
    have hsub : body.lexemes ⊆ ps.flatMap ItemPhrase.lexemes ++ [⟨.eof, stop⟩] := fun l hl ↦
      List.mem_append_left _ (List.mem_flatMap.2 ⟨_, hi, by simp [ItemPhrase.lexemes, hl]⟩)
    have hedged : (body.tree source).span.Edged body.lexemes := body.edged_span (List.Subset.refl _)
    obtain ⟨hstart, hstop, hle⟩ := hedged.valid hlex hsub
    obtain ⟨l, hl, hlstart⟩ := hedged.start
    obtain ⟨m, hm, hmstop⟩ := hedged.stop
    obtain ⟨hclear, hwidth⟩ := C.clear_of_lex helse hlex l (hsub hl)
    obtain ⟨hclear', hwidth'⟩ := C.clear_of_lex helse hlex m (hsub hm)
    have hside : (body.tree source).span.stop ≤ C.start ∨
        C.stop ≤ (body.tree source).span.start := by
      obtain hfront | hback := hclear
      · obtain hfront' | hback' := hclear'
        · exact .inl (hmstop ▸ hfront')
        · exact absurd ⟨ps, word, name, nameSpan, body, hps, hi, hlstart ▸ hwidth.trans hfront,
            hmstop ▸ hback'.trans hwidth'⟩ hout
      · exact .inr (hlstart ▸ hback)
    show some (name, Parser.captured C.result
      ((body.edit (.plain (Span.map C.shifted))).tree C.result).span) = _
    rw [body.span_tree_plain C.monotone_shifted source]
    exact congrArg (fun text ↦ some (name, text))
      (captured_shift C.source_eq C.result_eq C.start_lt_stop hstart hstop hle hside)

/-- The definitions come to the same without a comment that stands in none of them. -/
theorem keepsDefinitions (helse : ¬ C.PartsElseIf) (hout : ¬ C.InDefinition) (s : Session) :
    C.KeepsDefinitions s := by
  have hsame : ∀ {items items'}, ReadsAs source items → ReadsAs C.result items' →
      s.textsWith items' = s.textsWith items := by
    intro items items' hitems hitems'
    obtain ⟨ps, hps, rfl⟩ := readsAs_iff.1 hitems
    cases hitems'.unique (readsAs_iff.2 ⟨_, C.written_result helse hps, rfl⟩)
    rw [Session.textsWith, Session.textsWith, Layer.declaredTexts, Layer.declaredTexts,
      List.map_map, List.filterMap_map, List.filterMap_map]
    exact congrArg (List.foldl _ _)
      (List.filterMap_congr fun i hi ↦ C.definition?_edit helse hout hps hi)
  constructor
  case mention =>
    intro items items' hitems hitems'
    rw [hsame hitems hitems']
    exact .inl MentionAlike.refl
  case expand =>
    intro items items' hitems hitems'
    rw [hsame hitems hitems']
    exact ExpandAlike.refl EqvGen.refl
  case calculations =>
    intro items items' hitems hitems' d _ text _ w _ body body' out out' h h' hout hout'
    rw [hsame hitems hitems'] at h' hout'
    cases h.symm.trans h'
    exact hout'.unique hout

/-! ## Compiling

The steps of a layer are taken one by one in both texts. The programs differ in positions and in
the wording of definitions, and both relations are known to be kept by every step. -/

section

variable {s : Session} (hs : s.Reachable) (helse : ¬ C.PartsElseIf)
  (hcalculation : ¬ C.InCalculation)
  (hdefinitions : C.KeepsDefinitions s)

include hs helse hcalculation hdefinitions

/-- The items of both texts are compiled to programs with the same images, or refused for the same
reason. -/
theorem agree_compile {ps : List ItemPhrase} (hps : WrittenAs source ps) :
    Agree (fun p q ↦ ∀ depth v, image p depth v = image q depth v) Eq
      ((s.nextLayer source).compile (ps.map (ItemPhrase.tree source)) (Session.deepen s.program))
      ((s.nextLayer C.result).compile
        ((ps.map (ItemPhrase.edit C.edit)).map (ItemPhrase.tree C.result))
        (Session.deepen s.program)) := by
  have hitems : ReadsAs source (ps.map (ItemPhrase.tree source)) := readsAs_iff.2 ⟨ps, hps, rfl⟩
  have hitems' := readsAs_iff.2 ⟨_, C.written_result helse hps, rfl⟩
  have hold : (Session.deepen s.program).Moved (s.nextLayer source).depth
      (definitionPlaces ps (ItemPhrase.edit C.edit)) (Session.deepen s.program) :=
    .refl fun d hd ↦ (Nat.lt_succ_of_le (hs.sound.defines d hd)).ne
  have hlayers : (s.nextLayer source).Same (s.nextLayer C.result) := ⟨rfl, rfl⟩
  have hmoves := C.forall₂_moves helse hps
    (fun i hi part hpart hwithin ↦ hcalculation ⟨ps, hps, i, hi, part, hpart, hwithin⟩)
    (s.nextLayer source).depth
  have htexts := C.textsWith_reworded s ps
  -- first the texts of the definitions change, then everything is moved along
  have hreworded := hs.agree_compile_reworded hitems (C.forall₂_reworded ps) readsAlike_blanked
    (htexts ▸ (hdefinitions.mention hitems hitems').imp_right fun hexpandable ↦
      ⟨hexpandable.1, hexpandable.2.of_moved hlayers hold (hmoves .empty)⟩)
    (htexts ▸ hdefinitions.expand hitems hitems')
    (htexts ▸ hdefinitions.calculations hitems hitems')
  have hmoved := Layer.agree_compile_same hlayers hold hmoves
  refine (hreworded.trans hmoved).imp ?_
  rintro p r ⟨q, hq, hqr⟩ depth v
  rw [← hqr.image_eq depth v, hq]
  rfl

/-- Both texts are compiled to programs with the same images, or refused for the same reason. -/
theorem agree_compileText :
    Agree (fun p q ↦ ∀ depth v, image p depth v = image q depth v) Eq
      (Session.compileText s.vocabulary s.entryFile source (Session.deepen s.program))
      (Session.compileText s.vocabulary s.entryFile C.result (Session.deepen s.program)) := by
  rw [Session.compileText, Session.compileText]
  dsimp only
  obtain ⟨ts, hlex, hlex', -⟩ | ⟨e, e', hlex, hlex'⟩ := C.lex_cases helse
  · rw [hlex, hlex']
    dsimp only
    cases hparse : parseFile source ts with
    | ok items =>
      obtain ⟨ps, hps, rfl⟩ := readsAs_iff.1 ⟨ts, hlex, hparse⟩
      obtain ⟨ts', hts', hparse'⟩ := readsAs_iff.2 ⟨_, C.written_result helse hps, rfl⟩
      cases hlex'.symm.trans hts'
      rw [hparse']
      exact C.agree_compile hs helse hcalculation hdefinitions hps
    | error e =>
      cases hparse' : parseFile C.result (ts.map C.edit.lexeme) with
      | ok items' =>
        obtain ⟨ps', hps', rfl⟩ := readsAs_iff.1 ⟨_, hlex', hparse'⟩
        obtain ⟨ps, hps⟩ := C.exists_written helse hps'
        obtain ⟨ts', hts', hparse''⟩ := readsAs_iff.2 ⟨ps, hps, rfl⟩
        cases hlex.symm.trans hts'
        cases hparse.symm.trans hparse''
      | error e' =>
        show (Problem.parse ..).code = (Problem.parse ..).code
        rw [Problem.code, Problem.code]
  · rw [hlex, hlex']
    show (Problem.lex ..).code = (Problem.lex ..).code
    rw [Problem.code, Problem.code]

end

end SkippedComment

/-- A comment that the lexer skips can be replaced by a space and the line feeds in it, unless it is
what keeps an `else` apart from an `if` or stands in a calculation, and if the definitions come to
the same without it. The layer is accepted in both cases, with the same image, or refused in both,
with the same code. -/
theorem comment_insignificant {s : Session} (hs : s.Reachable) {source : String}
    (C : SkippedComment source) (helse : ¬ C.PartsElseIf) (hcalculation : ¬ C.InCalculation)
    (hdefinitions : C.KeepsDefinitions s) :
    (∃ depth s' t, s.compileLayer source = (.ok depth, s') ∧ s.compileLayer C.result =
        (.ok depth, t) ∧ ∀ v, image s'.program depth v = image t.program depth v) ∨
      ∃ e e' s' t, s.compileLayer source = (.error e, s') ∧ s.compileLayer C.result =
        (.error e', t) ∧ e.code = e'.code := by
  have hagree := C.agree_compileText hs helse hcalculation hdefinitions
  rw [Session.compileLayer, Session.compileLayer]
  cases hp : Session.compileText s.vocabulary s.entryFile source (Session.deepen s.program) with
  | ok _ p =>
    obtain ⟨_, q, hq, -, himage⟩ := hagree.ok_of_ok hp
    rw [hq]
    exact .inl ⟨_, _, _, rfl, rfl, himage _⟩
  | error e p =>
    obtain ⟨e', q, hq, hcode⟩ := hagree.error_of_error hp
    rw [hq]
    exact .inr ⟨e, e', _, _, rfl, rfl, hcode⟩

namespace Sample

/-- Whether a token other than the end of the text stops at a place. -/
def tokenStops (source : String) (n : Nat) : Bool :=
  (lex source).toOption.any fun ts ↦ ts.dropLast.any (·.span.stop == n)

def blockComment (body : String) : List Char :=
  '/' :: '*' :: (body.toList ++ ['*', '/'])

/-- A block comment stands in `source` behind a token and a space, and `result` has a space in its
place and its line feeds. -/
def Replaces (front body back source result : String) : Prop :=
  source.toList = front.toList ++ ([' '] ++ (blockComment body ++ back.toList)) ∧
    tokenStops source (byteLength front.toList) = true ∧ ¬ ['*', '/'] <:+: body.toList ++ ['*'] ∧
    result.toList = front.toList ++ [' '] ++
      (' ' :: (blockComment body).filter (· == '\n') ++ back.toList)

instance (front body back source result : String) :
    Decidable (Replaces front body back source result) :=
  inferInstanceAs (Decidable (_ ∧ _))

theorem Replaces.exists_comment {front body back source result : String}
    (h : Replaces front body back source result) :
    ∃ C : SkippedComment source, C.front = front.toList ++ [' '] ∧ C.result = result := by
  obtain ⟨hsource, hstops, hbody, hresult⟩ := h
  obtain ⟨ts, hlex, hany⟩ : ∃ ts, lex source = .ok ts ∧
      ts.dropLast.any (·.span.stop == byteLength front.toList) = true := by
    rw [tokenStops, Option.any_eq_true] at hstops
    obtain ⟨ts, hts, hany⟩ := hstops
    exact ⟨ts, toOption_eq_some.1 hts, hany⟩
  obtain ⟨ls, rfl, hls⟩ := (lex_tiles hlex).ends
  rw [List.dropLast_concat] at hany
  obtain ⟨l, hl, hstop⟩ := List.any_eq_true.1 hany
  have hspace : ∀ c ∈ [' '], isBlank c = true := List.forall_mem_singleton.2 rfl
  obtain ⟨C, hfront, hcomment, hback⟩ := SkippedComment.exists_behind hlex
    (List.mem_append_left _ hl) (hls l hl).1 hsource (eq_of_beq hstop) hspace (.block hbody) rfl
  refine ⟨C, hfront, ?_⟩
  rw [SkippedComment.result, SkippedComment.blank, hfront, hcomment, hback]
  exact (congrArg String.ofList hresult).symm.trans String.ofList_toList

/-- A layer that prints a sum with a comment in it. -/
def commented : String :=
  "global g
#define SUM (g /* of two */ + g)
script main() \x7b Print(SUM) \x7d"

def uncommented : String :=
  "global g
#define SUM (g   + g)
script main() \x7b Print(SUM) \x7d"

theorem calcWord_ne {source : String} {ts : List Lexeme} (hlex : lex source = .ok ts)
    (h : (lex source).toOption.all (·.all fun l ↦ decide (l.token ≠ .calcWord)) = true) :
    ∀ l ∈ ts, l.token ≠ .calcWord := by
  rw [hlex] at h
  exact fun l hl ↦ of_decide_eq_true (List.all_eq_true.1 h l hl)

/-- What a text with one definition leaves at a name where nothing was defined. -/
theorem textsWith_eq_some {source : String} {items : List Item} {name text w body : String}
    (hitems : ReadsAs source items)
    (h : (items? source).map (·.filterMap Item.definition?) = some [(name, text)])
    (hw : start.textsWith items w = some body) :
    w = name ∧ body = text := by
  rw [items?_of_readsAs hitems] at h
  have hnone : texts start.program.defines w = none := Option.map_eq_none_iff.2 (Table.get?_empty w)
  have hdefinitions : items.filterMap Item.definition? = [(name, text)] := Option.some.inj h
  rw [Session.textsWith, Layer.declaredTexts, hdefinitions, List.foldl_cons, List.foldl_nil,
    Function.update_apply] at hw
  split at hw
  next heq => exact ⟨heq, (Option.some.inj hw).symm⟩
  next => cases hnone.symm.trans hw

theorem textsWith_eq_none {source : String} {items : List Item} {name text : String}
    (hitems : ReadsAs source items)
    (h : (items? source).map (·.filterMap Item.definition?) = some [(name, text)])
    {words : List String}
    (hwords : name ∉ words) :
    ∀ w ∈ words, start.textsWith items w = none := by
  intro w hw
  by_contra hne
  obtain ⟨body, hbody⟩ := Option.ne_none_iff_exists'.1 hne
  exact hwords ((textsWith_eq_some hitems h hbody).1 ▸ hw)

theorem blanked_sum : Blanked "(g /* of two */ + g)" "(g   + g)" := by
  have hcomment : Replaces "(g" " of two " " + g)" "(g /* of two */ + g)" "(g   + g)" := by
    decide +kernel
  obtain ⟨C, hfront, hresult⟩ := hcomment.exists_comment
  obtain ⟨ts, hts⟩ : ∃ ts, (lex "(g /* of two */ + g)").toOption = some ts :=
    Option.isSome_iff_exists.1 (by decide +kernel)
  have hlex := toOption_eq_some.1 hts
  have helse : ¬ C.PartsElseIf := C.not_partsElseIf (by rw [hfront]; decide +kernel)
  have hblanked := C.blanked helse hlex (calcWord_ne hlex (by decide +kernel))
  rwa [hresult] at hblanked

def calculations : Item → List String
  | .callable d => d.body.calculations
  | _ => []

/-- What running the program on the two texts shows. -/
theorem commented_runs :
    Replaces "global g
#define SUM (g" " of two " " + g)
script main() \x7b Print(SUM) \x7d" commented uncommented ∧
      (start.compileLayer commented).1.toOption = some 1 ∧
      (lex commented).toOption.all (·.all fun l ↦ decide (l.token ≠ .calcWord)) = true ∧
      (items? commented).all (·.all fun i ↦ (calculations i).isEmpty) = true ∧
      (items? commented).map (·.filterMap Item.definition?)
        = some [("SUM", "(g /* of two */ + g)")] ∧
      (items? uncommented).map (·.filterMap Item.definition?) = some [("SUM", "(g   + g)")] := by
  decide +kernel

theorem definitions_commented : (items? commented).map (·.filterMap Item.definition?)
    = some [("SUM", "(g /* of two */ + g)")] :=
  commented_runs.2.2.2.2.1

theorem definitions_uncommented : (items? uncommented).map (·.filterMap Item.definition?)
    = some [("SUM", "(g   + g)")] :=
  commented_runs.2.2.2.2.2

theorem calculations_commented {items : List Item} (hitems : ReadsAs commented items)
    {d : CallableDecl}
    (hd : .callable d ∈ items) : d.body.calculations = [] := by
  obtain ⟨-, -, -, hnone, -⟩ := commented_runs
  rw [items?_of_readsAs hitems] at hnone
  exact List.isEmpty_iff.1 (List.all_eq_true.1 hnone _ hd)

/-- The comment mentions nothing that is defined. -/
theorem keepsDefinitions_commented (C : SkippedComment commented)
    (hresult : C.result = uncommented) :
    C.KeepsDefinitions start := by
  have hwords : ∀ {items}, ReadsAs commented items → ∀ {name body},
      start.textsWith items name = some body →
        ∀ w ∈ wordsOf body, start.textsWith items w = none := by
    intro items hitems name body h
    obtain ⟨-, rfl⟩ := textsWith_eq_some hitems definitions_commented h
    exact textsWith_eq_none hitems definitions_commented (by decide +kernel)
  constructor
  case mention =>
    intro items items' hitems hitems'
    rw [hresult] at hitems'
    refine .inl (MentionAlike.of_silent (hwords hitems) fun {name body} h ↦ ?_)
    obtain ⟨-, rfl⟩ := textsWith_eq_some hitems' definitions_uncommented h
    exact textsWith_eq_none hitems definitions_commented (by decide +kernel)
  case expand =>
    intro items items' hitems hitems'
    rw [hresult] at hitems'
    refine ExpandAlike.of_silent (hwords hitems) (fun {name body} h ↦ ?_)
      fun {name body body'} h h' ↦ ?_
    · obtain ⟨-, rfl⟩ := textsWith_eq_some hitems' definitions_uncommented h
      exact textsWith_eq_none hitems' definitions_uncommented (by decide +kernel)
    · obtain ⟨-, rfl⟩ := textsWith_eq_some hitems definitions_commented h
      obtain ⟨-, rfl⟩ := textsWith_eq_some hitems' definitions_uncommented h'
      exact .rel _ _ blanked_sum
  case calculations =>
    intro items items' hitems hitems' d hd text htext
    rw [calculations_commented hitems hd] at htext
    cases htext

end Sample

/-- A comment in a definition that mentions nothing defined has no part in the image. -/
theorem comment_insignificant_sample :
    ∃ C : SkippedComment Sample.commented, C.result = Sample.uncommented ∧
      ¬ C.PartsElseIf ∧ ¬ C.InCalculation ∧ C.KeepsDefinitions Sample.start ∧
      ∃ s t, Sample.start.compileLayer Sample.commented = (.ok 1, s) ∧
        Sample.start.compileLayer Sample.uncommented = (.ok 1, t) ∧
        ∀ v, image s.program 1 v = image t.program 1 v := by
  obtain ⟨hcomment, haccepted, hcalc, -⟩ := Sample.commented_runs
  obtain ⟨C, hfront, hresult⟩ := hcomment.exists_comment
  obtain ⟨s, hs⟩ := Sample.accepted_of_toOption Sample.commented haccepted
  obtain ⟨-, -, items, ⟨ts, hlex, -⟩, -⟩ := Session.compileLayer_ok hs
  have helse : ¬ C.PartsElseIf := C.not_partsElseIf (by rw [hfront]; decide +kernel)
  have hcalculation : ¬ C.InCalculation :=
    C.not_inCalculation hlex (Sample.calcWord_ne hlex hcalc)
  have hdefinitions := Sample.keepsDefinitions_commented C hresult
  refine ⟨C, hresult, helse, hcalculation, hdefinitions, ?_⟩
  obtain ⟨depth, s', t, hs', ht, himage⟩ | ⟨e, e', s', t, hs', -⟩ :=
    comment_insignificant Sample.reachable_start C helse hcalculation hdefinitions
  · cases hs.symm.trans hs'
    rw [hresult] at ht
    exact ⟨s, t, hs, ht, himage⟩
  · cases hs.symm.trans hs'

/-- With the comment the layer is refused, with this code, and without it the layer is accepted. -/
def SkippedComment.Counts {source : String} (C : SkippedComment source) (s : Session)
    (code : String) :
    Prop :=
  (∃ e t, s.compileLayer source = (.error e, t) ∧ e.code = code) ∧
    ∃ depth t, s.compileLayer C.result = (.ok depth, t)

namespace Sample

/-- With the block comment the text is refused, with this code, and with a space in its place the
text is accepted. -/
def Spoils (front body back source result code : String) : Prop :=
  Replaces front body back source result ∧
    (start.compileLayer source).1.mapError Problem.code = .error code ∧
    (start.compileLayer result).1.toOption = some 1

instance (front body back source result code : String) :
    Decidable (Spoils front body back source result code) :=
  inferInstanceAs (Decidable (_ ∧ _))

/-- A comment counts if that is found when both texts are tried. -/
theorem Spoils.exists_counts {front body back source result code : String}
    (h : Spoils front body back source result code) :
    ∃ C : SkippedComment source, C.Counts start code := by
  obtain ⟨hcomment, hrefused, haccepted⟩ := h
  obtain ⟨C, -, hresult⟩ := hcomment.exists_comment
  obtain ⟨t, ht⟩ := accepted_of_toOption result haccepted
  obtain ⟨e, he, hcode⟩ : ∃ e, (start.compileLayer source).1 = .error e ∧ e.code = code := by
    cases hanswer : (start.compileLayer source).1 with
    | ok depth =>
      rw [hanswer] at hrefused
      cases hrefused
    | error e =>
      rw [hanswer] at hrefused
      exact ⟨e, rfl, Except.error.inj hrefused⟩
  exact ⟨C, ⟨e, _, Prod.ext he rfl, hcode⟩, 1, t, hresult ▸ ht⟩

/-- A layer with a comment in a calculation. -/
def calculated : String :=
  "script main() \x7b let x = #calc(1 /* one */ + 2) \x7d"

/-- A layer with a comment between an `else` and an `if`. -/
def parted : String :=
  "script main() \x7b if 1 \x7b \x7d else /* c */ if 1 \x7b \x7d \x7d"

/-- A layer whose definition mentions itself in a comment. -/
def circle : String :=
  "global g
#define A g /* A */ + g
script main() \x7b Print(A) \x7d"

end Sample

/-- A comment counts in a calculation, between an `else` and an `if`, and if a definition mentions
itself in it. -/
theorem comment_counts :
    (∃ C : SkippedComment Sample.calculated, C.Counts Sample.start "EvalError") ∧
      (∃ C : SkippedComment Sample.parted, C.Counts Sample.start "SyntaxError") ∧
      ∃ C : SkippedComment Sample.circle, C.Counts Sample.start "MacroRecursionError" := by
  have hcalculated : Sample.Spoils "script main() \x7b let x = #calc(1" " one " " + 2) \x7d"
      Sample.calculated "script main() \x7b let x = #calc(1   + 2) \x7d" "EvalError" := by
    decide +kernel
  have hparted : Sample.Spoils
      "script main() \x7b if 1 \x7b \x7d else" " c " " if 1 \x7b \x7d \x7d"
      Sample.parted "script main() \x7b if 1 \x7b \x7d else   if 1 \x7b \x7d \x7d"
      "SyntaxError" := by
    decide +kernel
  have hcircle : Sample.Spoils "global g
#define A g" " A " " + g
script main() \x7b Print(A) \x7d" Sample.circle "global g
#define A g   + g
script main() \x7b Print(A) \x7d" "MacroRecursionError" := by
    decide +kernel
  exact ⟨hcalculated.exists_counts, hparted.exists_counts, hcircle.exists_counts⟩

end CharacterScript
