import CharacterScript.Proofs.Lexing.Splicing
import CharacterScript.Proofs.Positions.Stitching

/-!
# The tokens of a stitched text

A file that can be cut into tokens by itself is cut in the same way in a stitched text: the marker
line in front of it leaves nothing open, and the line feed behind it goes on with nothing. So the
tokens of the whole are those of the files, each file at its place and behind the token of its
marker (`lex_stitch`).

## Why each file by itself

A text that can be cut into tokens only together with another one, such as a literal that starts
in one file and ends in the next, is not excluded by the program: files are compiled as one text.
But in such a text the marker of the second file is inside of the literal, and then nothing can be
said of either. So the condition is that a file can be read alone.
-/

namespace CharacterScript

namespace SourceMap

/-- A file that can be stitched to others and can be read without them. -/
structure Standalone (file : String × String) : Prop extends Stitchable file where
  /-- The path is not empty, so the marker is one. -/
  path_ne : file.1 ≠ ""
  /-- The text can be cut into tokens by itself. -/
  lexes : ∃ ts, lex file.2 = .ok ts

/-- The tokens of a text without the end mark. -/
def tokens (text : String) : List Lexeme :=
  ((lex text).toOption.getD []).dropLast

theorem lex_eq_tokens {text : String} {ts : List Lexeme} (h : lex text = .ok ts) :
    ts = tokens text ++ [⟨.eof, ⟨text.utf8ByteSize, text.utf8ByteSize⟩⟩] ∧
      ∀ l ∈ tokens text, l.token ≠ .eof ∧ l.span.start ≤ l.span.stop ∧
        l.span.stop ≤ text.utf8ByteSize := by
  have htiles := lex_tiles h
  obtain ⟨front, rfl, hfront⟩ := htiles.ends
  have htokens : tokens text = front := by
    rw [tokens, h]
    exact List.dropLast_concat
  rw [htokens]
  refine ⟨rfl, fun l hl ↦ ⟨(hfront l hl).1, (hfront l hl).2.le, ?_⟩⟩
  exact ((List.pairwise_append.1 htiles.increasing).2.2 l hl _ (List.mem_singleton_self _)).2

/-- The tokens of files that are stitched together, if the text starts at byte `offset`. -/
def stitchedTokens (offset : Nat) : List (String × String) → List Lexeme
  | [] => [⟨.eof, ⟨offset, offset⟩⟩]
  | file :: files =>
    ⟨.directive .file file.1, ⟨offset + 2, offset + 2 + byteLength (marker ++ file.1.toList)⟩⟩ ::
      ((tokens file.2).map (Lexeme.rebase 0 (offset + byteLength (header file.1))) ++
        stitchedTokens (offset + byteLength (chunk file)) files)

variable {last : Option Token} {offset : Nat} {rest : List Char} {ts : List Lexeme}

theorem lexes_lineFeeds (h : Lexes last (offset + 2) rest ts) :
    Lexes last offset (['\n', '\n'] ++ rest) ts := by
  have hblank : isBlank '\n' = true := by decide
  show Lexes last offset (['\n'] ++ (['\n'] ++ rest)) ts
  exact .gap (.blank hblank) (.gap (.blank hblank) h)

/-- The header of a file is one token. -/
theorem lexes_header {path : String} (hne : path ≠ "") (hline : '\n' ∉ path.toList)
    (hend : path.toList.getLast?.any isSpace = false)
    (h : Lexes (some (.directive .file path)) (offset + byteLength (header path)) rest ts) :
    Lexes last offset (header path ++ rest)
      (⟨.directive .file path, ⟨offset + 2, offset + 2 + byteLength (marker ++ path.toList)⟩⟩ ::
        ts) := by
  have hspells : Spells (.directive .file path) (marker ++ path.toList) := by
    have hspelled := @Spells.directive .file path.toList [] (by simpa using hne) hend nofun
      (by rwa [List.append_nil])
    rwa [List.append_nil, String.ofList_toList] at hspelled
  have hlength : offset + byteLength (header path)
      = offset + 2 + byteLength (marker ++ path.toList) + 2 := by
    rw [header, byteLength_append, byteLength_append, show byteLength ['\n', '\n'] = 2 from rfl]
    omega
  rw [hlength] at h
  have hmarker : Lexes last (offset + 2) (marker ++ path.toList ++ (['\n', '\n'] ++ rest)) _ :=
    .token hspells (noneNext_cons.2 rfl) (lexes_lineFeeds h)
  rw [header, List.append_assoc, List.append_assoc]
  exact lexes_lineFeeds hmarker

/-- The content of a file reads behind its header, and in front of the next one, as it does
alone. -/
theorem pieces_content {path content : String} {alone : List Lexeme}
    (hlex : lex content = .ok alone)
    (offset : Nat) (hrest : NoneNext (· != '\n') rest) :
    ∃ last', Pieces rest (some (.directive .file path)) offset content.toList
      ((tokens content).map (Lexeme.rebase 0 offset)) last' := by
  obtain ⟨rfl, htokens⟩ := lex_eq_tokens hlex
  have hthere : Lexes (some (.directive .file path)) offset content.toList _ :=
    (lex_eq_ok_iff.1 hlex).rebase 0 offset le_rfl (Nat.zero_add _).symm rfl
  rw [List.map_append, List.map_singleton] at hthere
  obtain ⟨last', hpieces⟩ :=
    hthere.pieces (by simpa [Lexeme.rebase] using fun l hl ↦ (htokens l hl).1) rfl
  refine ⟨last', hpieces.neutral ?_ fun _ ↦ hrest⟩
  cases rest with
  | nil => exact neutral_nil
  | cons c rest =>
    obtain rfl : c = '\n' := by simpa using hrest
    exact neutral_lineFeed rest

theorem lexes_chunks {files : List (String × String)} (h : ∀ file ∈ files, Standalone file) :
    ∀ {last : Option Token} {offset : Nat},
      Lexes last offset (files.flatMap chunk) (stitchedTokens offset files) := by
  induction files with
  | nil => exact .done
  | cons file files ih =>
    intro last offset
    obtain ⟨hfile, hfiles⟩ := List.forall_mem_cons.1 h
    obtain ⟨alone, hlex⟩ := hfile.lexes
    obtain ⟨last', hpieces⟩ := @pieces_content _ file.1 _ _ hlex
      (offset + byteLength (header file.1)) (lineEnd_chunks files)
    have hbehind := @ih hfiles last' (offset + byteLength (chunk file))
    rw [chunk, byteLength_append, ← Nat.add_assoc] at hbehind
    rw [List.flatMap_cons, chunk, List.append_assoc]
    have hcontent := @lexes_header last _ _ _ _ hfile.path_ne hfile.path_line hfile.path_end
      (hpieces.lexes hbehind)
    rwa [Nat.add_assoc _ (byteLength _), ← byteLength_append] at hcontent

theorem lex_stitch {files : List (String × String)} (h : ∀ file ∈ files, Standalone file) :
    lex (stitch files) = .ok (stitchedTokens 0 files) := by
  rw [lex_eq_ok_iff, toList_stitch]
  exact lexes_chunks h

end SourceMap

end CharacterScript
