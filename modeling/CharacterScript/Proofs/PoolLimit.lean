import CharacterScript.Proofs.Calls
import CharacterScript.Proofs.Image.Layout
import CharacterScript.Proofs.Inlining
import CharacterScript.Proofs.Redefining.Layers
import CharacterScript.Proofs.ScopeTree

/-!
# How many anonymous scopes a layer can have

An accepted layer has one anonymous scope for each of its loops and branches. Lowering insists that
the place of a scope in the pool is a 16-bit word, and an image that their number is one. Places are
counted from zero, so these two limits are not the same: a layer may have up to 65536 anonymous
scopes, and one with just so many is accepted and has no image (`accepted_pool_size`). There are
such layers (`accepted_past_image_limit`).

## A layer at the limit

That the limits differ has to be shown by a layer, and one with 65536 blocks cannot be evaluated
in a proof. It is given by a number: `n` nested or repeated loops have a text, the text has a
phrase, and the phrase is lowered to as many scopes, all by induction. The layer with just too
many is one instance.
-/

namespace CharacterScript

open Running

/-! ## Blocks and places

A block that was lowered has a place that is a word, so the last place that was given out bounds
the number of blocks. -/

/-- The number of loops and branches in the bodies of a layer. -/
def blocksOf (items : List Item) : Nat :=
  ((bodiesOf items).map fun (_, body) ↦ stmtBlocks body.stmts).sum

/-- The number of places that a 16-bit word can name. -/
def places : Nat := 65536

section

variable {p : Program} {l : Layer} {R : Rule}

mutual

/-- Blocks that have their places do not go past the last place. -/
private theorem Stmt.Compiled.le_places {id : ScopeId} {s : Scope} {vars : List Identifier} :
    ∀ {stmt : Stmt} {place : Nat} {is : List Instruction}, stmt.Compiled p l R id s vars place is →
      place ≤ places → place + stmt.blocks ≤ places
  | .loop _ _, _, _, ⟨_, hbody, _⟩, _ => Block.Compiled.le_places hbody
  | .if_ _ body _ _, _, _, ⟨_, _, _, _, hbody, hrest, _⟩, _ => by
    rw [Stmt.blocks, ← Nat.add_assoc]
    exact Branches.Compiled.le_places hrest (Block.Compiled.le_places hbody)
  | .break_ _, _, _, _, hle | .call _, _, _, _, hle | .let_ _ _ _ _, _, _, _, hle
  | .assign _ _ _ _ _, _, _, _, hle | .return_ _ _, _, _, _, hle | .lone _ _, _, _, _, hle => hle

private theorem stmtsCompiled.le_places {id : ScopeId} {s : Scope} :
    ∀ {stmts : List Stmt} {vars : List Identifier} {place : Nat} {is : List Instruction},
      stmtsCompiled p l R id s vars place stmts is → place ≤ places →
      place + stmtBlocks stmts ≤ places
  | [], _, _, _, _, hle => hle
  | _ :: _, _, _, _, ⟨_, _, _, hstmt, _, hrest⟩, hle => by
    rw [stmtBlocks, ← Nat.add_assoc]
    exact stmtsCompiled.le_places hrest (Stmt.Compiled.le_places hstmt hle)

private theorem Block.Compiled.le_places {id : ScopeId} {s : Scope} {vars : List Identifier} :
    ∀ {b : Block} {place : Nat} {w : UInt16}, b.Compiled p l R id s vars place w →
      place + b.blocks ≤ places
  | .mk _ _, place, w, ⟨hw, _, _, _, _, _, _, _, _, _, _, _, hstmts⟩ => by
    -- the block itself has a place that is a word
    have hplace : place + 1 ≤ places := hw ▸ w.toNat_lt
    rw [Block.blocks, ← Nat.add_assoc]
    exact stmtsCompiled.le_places hstmts hplace

private theorem Branches.Compiled.le_places {id : ScopeId} {s : Scope} {vars : List Identifier} :
    ∀ {b : Branches} {place : Nat} {os : List Operand}, b.Compiled p l R id s vars place os →
      place ≤ places → place + b.blocks ≤ places
  | .done, _, _, _, hle => hle
  | .else_ _, _, _, ⟨_, hbody, _⟩, _ => Block.Compiled.le_places hbody
  | .elif _ _ _, _, _, ⟨_, _, _, _, hbody, hrest, _⟩, _ => by
    rw [Branches.blocks, ← Nat.add_assoc]
    exact Branches.Compiled.le_places hrest (Block.Compiled.le_places hbody)

end

/-- The pool has a place for each block of the bodies. -/
theorem bodiesCompiled.size_eq {bodies : List (Owner × Block)} {place : Nat}
    (h : bodiesCompiled p l R place bodies) : (p.anonymous l.depth).size
      = place + (bodies.map fun (_, body) ↦ stmtBlocks body.stmts).sum := by
  induction bodies generalizing place with
  | nil => exact h
  | cons entry rest ih =>
    rw [ih h.2, List.map_cons, List.sum_cons, Nat.add_assoc]

theorem bodiesCompiled.size_le {bodies : List (Owner × Block)} {place : Nat}
    (h : bodiesCompiled p l R place bodies) (hle : place ≤ places) :
    (p.anonymous l.depth).size ≤ places := by
  induction bodies generalizing place with
  | nil => exact h.le.trans hle
  | cons entry rest ih =>
    obtain ⟨⟨_, _, _, _, _, _, _, _, _, _, _, hstmts⟩, hrest⟩ := h
    exact ih hrest (stmtsCompiled.le_places hstmts hle)

end

/-! ## Images with too many anonymous scopes

Everything that is written before the number of scopes may fail for reasons of its own. A writer
that succeeds has gone past the check of that number, and this is kept by every way of putting
writers together. -/

namespace Image

variable {α β : Type}

/-- The computation does not fail for the number of anonymous scopes. -/
def PassesPool (x : Except ImageError α) : Prop :=
  ∀ n, x ≠ .error (.countOverflow .anonymousScopes n)

namespace PassesPool

theorem ok (a : α) : PassesPool (.ok a) := by
  rintro _ ⟨⟩

theorem bind {x : Except ImageError α} {f : α → Except ImageError β} (hx : PassesPool x)
    (hf : ∀ a, PassesPool (f a)) : PassesPool (x >>= f) := by
  cases x with
  | ok a => exact hf a
  | error e => exact fun n h ↦ hx n (congrArg Except.error (Except.error.inj h))

/-- What fails for the number of anonymous scopes fails there later on. -/
theorem of_bind {x : Except ImageError α} {f : α → Except ImageError β}
    (hx : PassesPool x) {n : Nat}
    (h : x >>= f = .error (.countOverflow .anonymousScopes n)) :
    ∃ a, x = .ok a ∧ f a = .error (.countOverflow .anonymousScopes n) := by
  cases x with
  | ok a => exact ⟨a, rfl, h⟩
  | error e => exact absurd (congrArg Except.error (Except.error.inj h)) (hx n)

theorem map {x : Except ImageError α} (hx : PassesPool x) (f : α → β) : PassesPool (x.map f) := by
  cases x with
  | ok a => exact ok _
  | error e => exact fun n h ↦ hx n (congrArg Except.error (Except.error.inj h))

theorem mapM {f : α → Except ImageError β} (hf : ∀ a, PassesPool (f a)) (as : List α) :
    PassesPool (as.mapM f) := by
  induction as with
  | nil => exact ok _
  | cons a as ih =>
    rw [List.mapM_cons]
    exact (hf a).bind fun b ↦ ih.bind fun bs ↦ ok _

end PassesPool

theorem passesPool_count8 {what : Counted} (hwhat : what ≠ .anonymousScopes) (n : Nat) :
    PassesPool (count8 what n) := by
  rw [count8]
  split
  · exact .ok _
  · rintro k ⟨⟩
    exact hwhat rfl

theorem passesPool_count16 {what : Counted} (hwhat : what ≠ .anonymousScopes) (n : Nat) :
    PassesPool (count16 what n) := by
  rw [count16]
  split
  · exact .ok _
  · rintro k ⟨⟩
    exact hwhat rfl

theorem passesPool_pointer16 (what : Pointed) (offset : Nat) :
    PassesPool (pointer16 what offset) := by
  rw [pointer16]
  split
  · exact .ok _
  · rintro _ ⟨⟩

theorem passesPool_tagged (tag : Tag) (what : Payload) (payload : Nat) :
    PassesPool (tagged tag what payload) := by
  rw [tagged]
  split
  · exact .ok _
  · rintro _ ⟨⟩

theorem passesPool_callWord (target : CallTarget) (id : UInt16) :
    PassesPool (callWord target id) := by
  cases target with
  | function | builtin => exact passesPool_tagged _ _ _
  | script => exact .ok _

mutual

theorem passesPool_writeOperand (out : Array UInt16) :
    ∀ o : Operand, PassesPool (writeOperand out o)
  | .number _ | .text _ | .var _ | .global _ _ => (passesPool_tagged _ _ _).bind fun _ ↦ .ok _
  | .raw _ => .ok _
  | .call _ _ _ args => (passesPool_callWord _ _).bind fun _ ↦ passesPool_writeOperands _ args
  | .not inner => (passesPool_tagged _ _ _).bind fun _ ↦ passesPool_writeOperand _ inner
  | .binary _ left right => (passesPool_tagged _ _ _).bind fun _ ↦
    (passesPool_writeOperand _ left).bind fun _ ↦ passesPool_writeOperand _ right

theorem passesPool_writeOperands (out : Array UInt16) : ∀ os : List Operand,
    PassesPool (writeOperands out os)
  | [] => .ok _
  | o :: rest => (passesPool_writeOperand _ o).bind fun _ ↦ passesPool_writeOperands _ rest

end

theorem passesPool_writeInstructions (v : Vocabulary) (out : Array UInt16) (is : List Instruction) :
    PassesPool (writeInstructions v out is) := by
  induction is generalizing out with
  | nil => exact .ok _
  | cons i rest ih =>
    rw [writeInstructions]
    split
    · rintro _ ⟨⟩
    · exact (passesPool_writeOperands _ _).bind fun _ ↦ ih _

theorem passesPool_stringBytes (s : String) : PassesPool (stringBytes s) := by
  rw [stringBytes]
  split
  · exact .ok _
  · rintro _ ⟨⟩

theorem passesPool_scopeBytes (v : Vocabulary) (s : Scope) : PassesPool (scopeBytes v s) :=
  (passesPool_writeInstructions _ _ _).bind fun _ ↦
    (passesPool_count16 (by decide) _).bind fun _ ↦ (passesPool_pointer16 _ _).bind fun _ ↦
      (passesPool_pointer16 _ _).bind fun _ ↦
        (PassesPool.mapM passesPool_stringBytes _).bind fun _ ↦ .ok _

theorem passesPool_callableSlot (v : Vocabulary) (p : Program) (depth : Nat) (c : Callable) :
    PassesPool (callableSlot v p depth c) := by
  rw [callableSlot]
  split
  · exact .ok _
  · exact PassesPool.map ((passesPool_scopeBytes _ _).bind fun _ ↦ (passesPool_pointer16 _ _).bind
      fun _ ↦ (passesPool_count8 (by decide) _).bind fun _ ↦ .ok _) some

theorem passesPool_scopeSlot (v : Vocabulary) (p : Program) (id : ScopeId) :
    PassesPool (scopeSlot v p id) := by
  rw [scopeSlot]
  split
  · exact .ok _
  · exact (passesPool_scopeBytes _ _).map some

theorem passesPool_scriptSlots (v : Vocabulary) (p : Program) (depth : Nat) :
    PassesPool (scriptSlots v p depth) := by
  have hrest : PassesPool (p.scripts.values.mapM (callableSlot v p depth)) :=
    PassesPool.mapM (passesPool_callableSlot v p depth) _
  rw [scriptSlots]
  split
  · exact (passesPool_callableSlot v p depth _).bind fun _ ↦ hrest.bind fun _ ↦ .ok _
  · exact hrest.bind fun _ ↦ .ok _

theorem passesPool_pointers (slots : List (Option (List UInt8))) (offset : Nat) (done : List Nat) :
    PassesPool (pointers offset done slots) := by
  induction slots generalizing offset done with
  | nil => exact .ok _
  | cons slot rest ih =>
    cases slot with
    | none => exact ih offset _
    | some body =>
      rw [pointers]
      split
      · exact ih _ _
      · rintro _ ⟨⟩

theorem length_of_mapM {f : α → Except ImageError β} {as : List α} {bs : List β}
    (h : as.mapM f = .ok bs) : bs.length = as.length := by
  induction as generalizing bs with
  | nil =>
    cases h
    rfl
  | cons a as ih =>
    rw [List.mapM_cons] at h
    obtain ⟨b, -, h⟩ := exceptBind_eq_ok.1 h
    obtain ⟨bs', hbs, h⟩ := exceptBind_eq_ok.1 h
    cases h
    rw [List.length_cons, List.length_cons, ih hbs]

end Image

/-- If it is the number of anonymous scopes that keeps a program from having an image, then a word
cannot count them. -/
theorem places_le_of_image_eq {p : Program} {depth : Nat} {v : Vocabulary} {n : Nat}
    (h : image p depth v = .error (.countOverflow .anonymousScopes n)) :
    n = (p.anonymous depth).size ∧ places ≤ n := by
  rw [image] at h
  obtain ⟨scripts, -, h⟩ := (Image.passesPool_scriptSlots v p depth).of_bind h
  obtain ⟨functions, -, h⟩ :=
    (Image.PassesPool.mapM (Image.passesPool_callableSlot v p depth) _).of_bind h
  obtain ⟨scopes, hscopes, h⟩ :=
    (Image.PassesPool.mapM (Image.passesPool_scopeSlot v p) _).of_bind h
  obtain ⟨globalCount, -, h⟩ := (Image.passesPool_count8 (by decide) _).of_bind h
  obtain ⟨scriptCount, -, h⟩ := (Image.passesPool_count8 (by decide) _).of_bind h
  obtain ⟨functionCount, -, h⟩ := (Image.passesPool_count8 (by decide) _).of_bind h
  have hlength : scopes.length = (p.anonymous depth).size :=
    (Image.length_of_mapM hscopes).trans Array.length_toList
  rw [Image.count16] at h
  split at h
  · obtain ⟨_, -, h⟩ := (Image.PassesPool.ok _).of_bind h
    obtain ⟨_, -, h⟩ := (Image.passesPool_pointers _ _ _).of_bind h
    cases h
  next hcount =>
    cases h
    exact ⟨hlength, Nat.le_of_not_lt hcount⟩

/-- A program with an image has no more anonymous scopes than a word can count. -/
theorem size_lt_of_image {p : Program} {depth : Nat} {v : Vocabulary} {bytes : List UInt8}
    (h : image p depth v = .ok bytes) : (p.anonymous depth).size < places := by
  rw [image] at h
  obtain ⟨scripts, -, h⟩ := exceptBind_eq_ok.1 h
  obtain ⟨functions, -, h⟩ := exceptBind_eq_ok.1 h
  obtain ⟨scopes, hscopes, h⟩ := exceptBind_eq_ok.1 h
  obtain ⟨globalCount, -, h⟩ := exceptBind_eq_ok.1 h
  obtain ⟨scriptCount, -, h⟩ := exceptBind_eq_ok.1 h
  obtain ⟨functionCount, -, h⟩ := exceptBind_eq_ok.1 h
  obtain ⟨scopeCount, hcount, -⟩ := exceptBind_eq_ok.1 h
  rw [Image.count16, Image.length_of_mapM hscopes, Array.length_toList] at hcount
  split at hcount
  next hlt => exact hlt
  next => cases hcount

/-! ## The pool of an accepted layer -/

/-- The pool of an accepted layer has one place for each loop and branch, and they are places. -/
theorem Session.Reachable.pool_size {s s' : Session} {source : String} {depth : Nat}
    (hs : s.Reachable) (h : s.compileLayer source = (.ok depth, s')) :
    ∃ items, ReadsAs source items ∧ (s'.program.anonymous depth).size = blocksOf items ∧
      blocksOf items ≤ places := by
  obtain ⟨hdepth, -, -⟩ := Session.compileLayer_ok h
  obtain ⟨items, hitems, hcompiled⟩ := hs.compiled h
  obtain ⟨order, hperm, hbodies⟩ := hcompiled.bodies
  have hsize : (s'.program.anonymous depth).size = blocksOf items := by
    rw [hdepth, hbodies.size_eq, Nat.zero_add, blocksOf]
    exact (hperm.map _).sum_nat
  refine ⟨items, hitems, hsize, ?_⟩
  rw [← hsize, hdepth]
  exact hbodies.size_le (Nat.zero_le _)

/-! ## Nested loops

A loop with loops in it is the simplest code with many scopes, for it needs neither names nor
numbers of its own. -/

/-- Loops with nothing but loops in them. -/
inductive Loops where
  | nil
  | loop (inner rest : Loops)

namespace Loops

/-- As many loops of one kind, one behind the other. -/
def times (inner : Loops) : Nat → Loops
  | 0 => .nil
  | n + 1 => .loop inner (times inner n)

def blocks : Loops → Nat
  | nil => 0
  | loop inner rest => 1 + inner.blocks + rest.blocks

theorem blocks_times (inner : Loops) (n : Nat) :
    (inner.times n).blocks = n * (1 + inner.blocks) := by
  induction n with
  | zero => rw [times, blocks, Nat.zero_mul]
  | succ n ih => rw [times, blocks, ih, Nat.succ_mul, Nat.add_comm]

def text : Loops → List Char
  | nil => []
  | loop inner rest => "loop".toList ++ ('\x7b' :: (inner.text ++ '\x7d' :: rest.text))

/-- The phrase of the text that starts at byte `a`. -/
def phrase (a : Nat) : Loops → StmtsPhrase
  | nil => .nil
  | loop inner rest =>
    let stop := a + 5 + byteLength inner.text
    .cons (.loop ⟨a, a + 4⟩ (.mk ⟨a + 4, a + 5⟩ (inner.phrase (a + 5)) ⟨stop, stop + 1⟩))
      (rest.phrase (stop + 1))

theorem blocks_phrase (source : String) : ∀ (ls : Loops) (a : Nat),
    stmtBlocks ((ls.phrase a).trees source) = ls.blocks
  | nil, _ => rfl
  | loop inner rest, a => by
    have hinner := inner.blocks_phrase source (a + 5)
    have hrest := rest.blocks_phrase source (a + 5 + byteLength inner.text + 1)
    rw [phrase, StmtsPhrase.trees, StmtPhrase.tree, BlockPhrase.tree, stmtBlocks, Stmt.blocks,
      Block.blocks, hinner, hrest, blocks]

theorem whole_phrase : ∀ (ls : Loops) (a : Nat) (rest : List Lexeme), (ls.phrase a).Whole rest
  | nil, _, _ => trivial
  | loop inner rest, _, _ => ⟨inner.whole_phrase _ _, rest.whole_phrase _ _⟩

end Loops

/-! ### Their text -/

theorem ends_openBrace {last : Option Token} (rest : List Char) :
    Token.Ends last ['\x7b'] rest (.punct .openBrace) := by
  refine ⟨?_, nofun, nofun, nofun⟩
  rw [Punct.read?_take]
  cases rest <;> simp [Punct.read?, Punct.all, Punct.spelling, List.isPrefixOf]

theorem ends_closeBrace {last : Option Token} (rest : List Char) :
    Token.Ends last ['\x7d'] rest (.punct .closeBrace) := by
  refine ⟨?_, nofun, nofun, nofun⟩
  rw [Punct.read?_take]
  cases rest <;> simp [Punct.read?, Punct.all, Punct.spelling, List.isPrefixOf]

/-- What stands in braces is read between the two marks. -/
theorem Lexes.braces {last : Option Token} {offset : Nat} {inner rest : List Char}
    {ts ts' : List Lexeme}
    (hinner : ∀ {rest ts'}, (∀ last, Lexes last (offset + 1 + byteLength inner) rest ts') →
      Lexes (some (.punct .openBrace)) (offset + 1) (inner ++ rest) (ts ++ ts'))
    (hrest : Lexes (some (.punct .closeBrace)) (offset + 1 + byteLength inner + 1) rest ts') :
    Lexes last offset ('\x7b' :: (inner ++ '\x7d' :: rest))
      (Punct.openBrace.at ⟨offset, offset + 1⟩ :: (ts ++ Punct.closeBrace.at
        ⟨offset + 1 + byteLength inner, offset + 1 + byteLength inner + 1⟩ :: ts')) :=
  .token (.punct .openBrace) (ends_openBrace _) (hinner fun _ ↦
    .token (.punct .closeBrace) (ends_closeBrace _) hrest)

theorem Loops.lexes : ∀ (ls : Loops) {last : Option Token} {offset : Nat} {rest : List Char}
    {ts : List Lexeme}, (∀ last, Lexes last (offset + byteLength ls.text) rest ts) →
    Lexes last offset (ls.text ++ rest) ((ls.phrase offset).lexemes ++ ts)
  | nil, last, _, _, _, h => h last
  | loop inner more, last, offset, rest, ts, h => by
    have hmore : ∀ last, Lexes last (offset + 4 + 1 + byteLength inner.text + 1 +
        byteLength more.text) rest ts := by
      intro last
      have hrest := h last
      rw [text, byteLength_append, byteLength_cons, byteLength_append, byteLength_cons] at hrest
      convert hrest using 1
      simp only [show byteLength "loop".toList = 4 from rfl, show '\x7b'.utf8Size = 1 from rfl,
        show '\x7d'.utf8Size = 1 from rfl]
      omega
    have hbraces : Lexes (some (.keyword .loop)) (offset + 4)
        ('\x7b' :: (inner.text ++ '\x7d' :: (more.text ++ rest))) _ :=
      .braces (inner.lexes) (more.lexes hmore)
    have hloop : Lexes last offset ("loop".toList ++ _) _ :=
      .token (.keyword (k := .loop) (by decide)) (noneNext_cons.2 (by decide)) hbraces
    have htext : (loop inner more).text ++ rest
        = "loop".toList ++ '\x7b' :: (inner.text ++ '\x7d' :: (more.text ++ rest)) := by
      simp [text]
    have hlexemes : ((loop inner more).phrase offset).lexemes ++ ts
        = Keyword.loop.at ⟨offset, offset + 4⟩ :: Punct.openBrace.at ⟨offset + 4, offset + 5⟩ ::
          ((inner.phrase (offset + 5)).lexemes ++
            Punct.closeBrace.at ⟨offset + 5 + byteLength inner.text,
              offset + 5 + byteLength inner.text + 1⟩ ::
            ((more.phrase (offset + 5 + byteLength inner.text + 1)).lexemes ++ ts)) := by
      simp [phrase, StmtsPhrase.lexemes, StmtPhrase.lexemes, BlockPhrase.lexemes]
    rw [htext, hlexemes]
    exact hloop

/-! ### Their scopes -/

/-- A number is put into an empty pool. -/
theorem Lowering.pushNumber_empty {w : Work} (hempty : w.scope.numbers = #[]) (value : Float)
    (pos : Unit → Position) : ∃ o w', Lowering.pushNumber value pos w = .ok o w' := by
  rw [pushNumber, modify_bind, get_bind]
  dsimp only
  rw [hempty]
  exact ⟨_, _, rfl⟩

/-- A block is lowered if its place is a word and its statements, which put no numbers into its
scope, are lowered. -/
theorem Block.exists_lower {env : Env} {stmts : List Stmt} {span : Span} {w t : Work}
    (hplace : env.place w < places)
    (hstmts : lowerStmts (env.enter w.scope.vars.toList w.program.scopes.size) stmts
      ⟨w.program.grow env.layer.depth [env.nested], env.nested⟩ = .ok () t)
    (hempty : t.scope.numbers = #[]) :
    ∃ word w', (Block.mk stmts span).lower env w = .ok word w' ∧ w'.scope = w.scope := by
  obtain ⟨zero, u, hzero⟩ := Lowering.pushNumber_empty hempty 0
    fun _ ↦ env.layer.pos (Block.mk stmts span).endSpan
  have hfill : Block.fill env stmts span w.scope.vars.toList w.program.scopes.size
      ⟨w.program.grow env.layer.depth [env.nested], env.nested⟩
        = Lowering.emit (.leave zero .scope) u := by
    rw [Block.fill, bind_of_ok hstmts, bind_of_ok hzero]
  have hword : word? (w.program.anonymous env.layer.depth).size = some (.ofNatLT _ hplace) :=
    dif_pos hplace
  rw [Block.lower_apply, hword, hfill]
  exact ⟨_, _, rfl, rfl⟩

namespace Loops

/-- With room in the pool for all of them, loops are lowered. They put no numbers into the scope
they are in. -/
theorem lowers (source : String) : ∀ (ls : Loops) (a : Nat) {env : Env} {w : Work}, env.Fits w →
    env.place w + ls.blocks ≤ places →
    ∃ w', lowerStmts env ((ls.phrase a).trees source) w = .ok () w' ∧
      w'.scope.numbers = w.scope.numbers
  | nil, _, _, w, _, _ => ⟨w, rfl, rfl⟩
  | loop inner rest, a, env, w, hfits, hroom => by
    rw [blocks] at hroom
    obtain ⟨span, loopSpan, htrees⟩ : ∃ span loopSpan, ((loop inner rest).phrase a).trees source
        = .loop (.mk ((inner.phrase (a + 5)).trees source) span) loopSpan ::
          (rest.phrase (a + 5 + byteLength inner.text + 1)).trees source := ⟨_, _, rfl⟩
    obtain ⟨t, ht, hnumbers⟩ := inner.lowers source (a + 5) (Env.enter_fits hfits) (by
      rw [Env.enter_place hfits]
      omega)
    obtain ⟨word, u, hblock, hscope⟩ : ∃ word u,
        (Block.mk ((inner.phrase (a + 5)).trees source) span).lower env w = .ok word u ∧
        u.scope = w.scope := Block.exists_lower (by omega) ht hnumbers
    have hloop : (Stmt.loop (.mk ((inner.phrase (a + 5)).trees source) span) loopSpan).lower env w
        = Lowering.emit (.loop word) u := bind_of_ok hblock
    obtain ⟨is, hran⟩ := Stmt.ran_lower _ hfits hloop
    obtain ⟨w', hw', hnumbers'⟩ := rest.lowers source (a + 5 + byteLength inner.text + 1)
      (hran.fits hfits) (by
        rw [hran.place hfits, Stmt.blocks, Block.blocks, inner.blocks_phrase]
        omega)
    refine ⟨w', ?_, hnumbers'.trans ?_⟩
    · rw [htrees, lowerStmts, bind_of_ok hloop]
      exact hw'
    · show u.scope.numbers = _
      rw [hscope]

end Loops

/-! ## A full pool -/

namespace Loops

/-- A layer whose only script is these loops. -/
def source (ls : Loops) : String :=
  String.ofList ("script main()\x7b".toList ++ (ls.text ++ ['\x7d']))

theorem toList_source (ls : Loops) : ls.source.toList = "script".toList ++ ([' '] ++
    ("main".toList ++ ("(".toList ++ (")".toList ++ '\x7b' :: (ls.text ++ ['\x7d']))))) :=
  String.toList_ofList

/-- The script in it. -/
def script (ls : Loops) : ItemPhrase :=
  .callable .script ⟨0, 6⟩ "main" ⟨7, 11⟩ (.empty ⟨11, 12⟩ ⟨12, 13⟩)
    (.mk ⟨13, 14⟩ (ls.phrase 14) ⟨14 + byteLength ls.text, 14 + byteLength ls.text + 1⟩)

theorem writtenAs_source (ls : Loops) : WrittenAs ls.source [ls.script] := by
  let stop := 14 + byteLength ls.text + 1
  have hbraces : Lexes (some (.punct .closeParen)) 13 ('\x7b' :: (ls.text ++ ['\x7d']))
      (Punct.openBrace.at ⟨13, 14⟩ :: ((ls.phrase 14).lexemes ++
        [Punct.closeBrace.at ⟨14 + byteLength ls.text, stop⟩, ⟨.eof, ⟨stop, stop⟩⟩])) :=
    .braces ls.lexes .done
  have hparens : Lexes (some (.name "main")) 11
      ("(".toList ++ (")".toList ++ '\x7b' :: (ls.text ++ ['\x7d'])))
      (Punct.openParen.at ⟨11, 12⟩ :: Punct.closeParen.at ⟨12, 13⟩ :: _) :=
    .token (.punct .openParen) (ends_openParen _)
      (.token (.punct .closeParen) (ends_closeParen _) hbraces)
  have hname : Lexes (some (.keyword .script)) 7
      ("main".toList ++ ("(".toList ++ (")".toList ++ '\x7b' :: (ls.text ++ ['\x7d']))))
      (⟨.name "main", ⟨7, 11⟩⟩ :: _) :=
    .token (.name ⟨by decide, by decide, by decide⟩) (noneNext_cons.2 (by decide)) hparens
  have hall : Lexes none 0 ("script".toList ++ ([' '] ++
      ("main".toList ++ ("(".toList ++ (")".toList ++ '\x7b' :: (ls.text ++ ['\x7d']))))))
      (Keyword.script.at ⟨0, 6⟩ :: _) :=
    .token (.keyword (k := .script) (by decide)) (noneNext_cons.2 (by decide))
      (.gap (.blank (by decide)) hname)
  have hlexemes : [ls.script].flatMap ItemPhrase.lexemes ++ [⟨.eof, ⟨stop, stop⟩⟩]
      = Keyword.script.at ⟨0, 6⟩ :: ⟨.name "main", ⟨7, 11⟩⟩ :: Punct.openParen.at ⟨11, 12⟩ ::
        Punct.closeParen.at ⟨12, 13⟩ :: Punct.openBrace.at ⟨13, 14⟩ :: ((ls.phrase 14).lexemes ++
          [Punct.closeBrace.at ⟨14 + byteLength ls.text, stop⟩, ⟨.eof, ⟨stop, stop⟩⟩]) := by
    simp [script, ItemPhrase.lexemes, ParamsPhrase.lexemes, BlockPhrase.lexemes,
      CallableKind.keyword, stop]
  refine ⟨⟨stop, stop⟩, ?_, ⟨.nil, ls.whole_phrase _ _⟩, trivial⟩
  rw [lex_eq_ok_iff, ls.toList_source, hlexemes]
  exact hall

/-- The layer declares its script. -/
theorem exists_declared (ls : Loops) : ∃ c, (Sample.start.nextLayer ls.source).declareAll
    [ls.script.tree ls.source] (Session.deepen .empty)
      = .ok () { Session.deepen .empty with main := some c } := by
  let l := Sample.start.nextLayer ls.source
  let p := Session.deepen .empty
  obtain ⟨d, hd, hkind, hname, hparams⟩ : ∃ d, ls.script.tree ls.source = .callable d ∧
      d.kind = .script ∧ d.name = "main" ∧ d.params = [] := ⟨_, rfl, rfl, rfl, rfl⟩
  have hcheck : ∀ pos, l.checkName p "main" .script pos none = .ok () := fun _ ↦ rfl
  have hcallable : ∃ c, l.newCallable .script d p = .ok c := by
    rw [Layer.newCallable, CallableDecl.refCount, hparams]
    exact ⟨_, rfl⟩
  obtain ⟨c, hc⟩ := hcallable
  have hnew : l.newScript d p = .ok c := by
    rw [Layer.newScript, hname]
    exact exceptBind_eq_ok.2 ⟨_, hcheck _, hc⟩
  have hinspect : Layer.inspect (l.newScript d) p = .ok c p := by
    rw [Layer.inspect, hnew]
  refine ⟨c, ?_⟩
  rw [hd, Layer.declareAll, Layer.declareItem, hkind, hname]
  exact bind_of_ok (bind_of_ok hinspect)

/-- Where there are no definitions, there are none to expand. -/
private theorem expandAll_empty : Expansion.expandAll .empty = .ok () .empty := by
  have hreset : (Table.empty : Table Define).map Define.reset = .empty := by
    simp [Table.map, Table.empty]
  rw [Expansion.expandAll, modify_bind, get_bind, hreset]
  rfl

/-- With no more loops than there are places, the layer is accepted. -/
theorem accepted (ls : Loops) (h : ls.blocks ≤ places) :
    ∃ s, Sample.start.compileLayer ls.source = (.ok 1, s) ∧
      (s.program.anonymous 1).size = ls.blocks := by
  have hitems : ReadsAs ls.source [ls.script.tree ls.source] :=
    readsAs_iff.2 ⟨_, ls.writtenAs_source, rfl⟩
  let l := Sample.start.nextLayer ls.source
  obtain ⟨c, hdeclared⟩ := ls.exists_declared
  have hexpanded : Expansion.expandAll (Session.deepen .empty).defines = .ok () .empty :=
    expandAll_empty
  -- the only body to lower is that of `main`, in a program that has nothing else
  let p := l.expanded [ls.script.tree ls.source]
    { Session.deepen .empty with main := some c } .empty
  let w : Work := ⟨p.addRoot (.root l.depth .main), .root l.depth .main⟩
  have hfits : (Env.body l .main p).Fits w := ⟨Nat.zero_lt_one, Nat.le_refl 1, Nat.zero_lt_one⟩
  have hempty : (Env.body l .main p).place w = 0 := rfl
  obtain ⟨w', hw', -⟩ := ls.lowers ls.source 14 hfits (by rwa [hempty, Nat.zero_add])
  let body : Block := .mk ((ls.phrase 14).trees ls.source)
    ((⟨13, 14⟩ : Span).merge ⟨14 + byteLength ls.text, 14 + byteLength ls.text + 1⟩)
  have hbody : lowerBody l .main body p = .ok p.scopes.size _ :=
    (lowerBody_apply l .main body p).trans (congrArg (bodyResult p.scopes.size) hw')
  have hbodies : l.toLower p [ls.script.tree ls.source] = [(.main, body)] := by
    have hmain : (Layer.bodies .script [ls.script.tree ls.source]).get? mainName = some body :=
      Table.get?_insert_self .empty mainName body
    rw [Layer.toLower, hmain]
    rfl
  obtain ⟨q, hlower⟩ : ∃ q, l.lowerAll (l.toLower p [ls.script.tree ls.source]) p = .ok () q := by
    rw [hbodies, Layer.lowerAll, bind_of_ok hbody]
    exact ⟨_, rfl⟩
  have hcompile : l.compile [ls.script.tree ls.source] (Session.deepen .empty) = .ok () q :=
    Layer.compile_eq_ok_iff.2 ⟨_, _, hdeclared, rfl, hexpanded, hlower⟩
  have hs : Sample.start.compileLayer ls.source = (.ok 1, { Sample.start with program := q }) :=
    Session.compileLayer_of_readsAs hitems hcompile
  refine ⟨_, hs, ?_⟩
  obtain ⟨items, hitems', hsize, -⟩ := Sample.reachable_start.pool_size hs
  rw [hsize, hitems'.unique hitems]
  show stmtBlocks ((ls.phrase 14).trees ls.source) + 0 = _
  rw [ls.blocks_phrase, Nat.add_zero]

end Loops

/-! ## Accepted layers -/

/-- An accepted layer has as many anonymous scopes as it has loops and branches, and no more than
there are places. So it has more than a word can count exactly if it has just so many, and then, and
only then, their number keeps it from having an image. -/
theorem accepted_pool_size {s s' : Session} {source : String} {depth : Nat} (hs : s.Reachable)
    (h : s.compileLayer source = (.ok depth, s')) :
    ∃ items, ReadsAs source items ∧ (s'.program.anonymous depth).size = blocksOf items ∧
      blocksOf items ≤ 65536 ∧
      (65535 < (s'.program.anonymous depth).size ↔ blocksOf items = 65536) ∧
      (blocksOf items = 65536 → ∀ v bytes, image s'.program depth v ≠ .ok bytes) ∧
      ∀ v n, image s'.program depth v = .error (.countOverflow .anonymousScopes n) →
        n = 65536 ∧ blocksOf items = 65536 := by
  obtain ⟨items, hitems, hsize, hle⟩ := hs.pool_size h
  rw [places] at hle
  refine ⟨items, hitems, hsize, hle, by omega, fun hblocks v bytes hbytes ↦ ?_, fun v n hn ↦ ?_⟩
  · have hlt := size_lt_of_image hbytes
    rw [places] at hlt
    omega
  · obtain ⟨hcount, hplaces⟩ := places_le_of_image_eq hn
    rw [places] at hplaces
    omega

/-- In the sample a loop and two branches make three anonymous scopes. -/
theorem accepted_pool_size_sample : ∃ s, Sample.start.compileLayer Sample.source = (.ok 1, s) ∧
    ∃ items, ReadsAs Sample.source items ∧ blocksOf items = 3 ∧
      ∀ n, image s.program 1 Sample.vocabulary ≠ .error (.countOverflow .anonymousScopes n) := by
  obtain ⟨s, hs⟩ := Sample.accepted
  obtain ⟨-, -, hpool, -⟩ := Sample.compiles
  rw [hs] at hpool
  obtain ⟨items, hitems, hsize, -, -, -, hcount⟩ := accepted_pool_size Sample.reachable_start hs
  have hthree : blocksOf items = 3 := hsize.symm.trans (congrArg Array.size hpool)
  exact ⟨s, hs, items, hitems, hthree, fun n hn ↦ by have := (hcount _ n hn).2; omega⟩

/-- As many loops as there are places: 256 of them with 255 empty ones in each. -/
def Loops.full : Loops :=
  .times (.times .nil 255) 256

/-- The layer of these loops is accepted with one anonymous scope more than a word can count. -/
theorem accepted_past_image_limit : ∃ s, Sample.start.compileLayer Loops.full.source = (.ok 1, s) ∧
    (s.program.anonymous 1).size = 65536 ∧ ∀ v bytes, image s.program 1 v ≠ .ok bytes := by
  have hblocks : Loops.full.blocks = 65536 := by
    rw [Loops.full, Loops.blocks_times, Loops.blocks_times, Loops.blocks]
  obtain ⟨s, hs, hsize⟩ := Loops.full.accepted (Nat.le_of_eq hblocks)
  rw [hblocks] at hsize
  refine ⟨s, hs, hsize, fun v bytes hbytes ↦ ?_⟩
  have hlt := size_lt_of_image hbytes
  rw [hsize] at hlt
  exact lt_irrefl _ hlt

end CharacterScript
