import Mathlib.Algebra.Ring.Nat
import LeanFlow.Source.Declarations

/-! Find and replace by a chain of matchers, from the exact one to those that guess.

A matcher finds spans of the content. Those over lines add up lengths of lines; the one
over blanks finds the pattern in a collapsed text and maps the positions back. -/
namespace LeanFlow.Patches
open General Source

/-- What `difflib` measures, and what Python does with floats. -/
structure Measure where
  ratio : Text → Text → Float
  round : Float → Float
  repr : Float → String

structure FuzzyConfig where
  block_anchor_threshold : Float := 0.5
  context_aware_line_fraction : Float := 0.66
  context_aware_min_similarity : Float := 0.4
  allow_fuzzy : Bool := true
  allow_structural : Bool := true

def default_config : FuzzyConfig := {}

/-- Exact or fail. -/
def strict_config : FuzzyConfig := { allow_fuzzy := false, allow_structural := false }

inductive Strategy where
  | exact
  | line_trimmed
  | whitespace_normalized
  | indentation_flexible
  | escape_normalized
  | trimmed_boundary
  | block_anchor
  | context_aware
deriving DecidableEq

def Strategy.structural : Strategy → Bool
  | block_anchor | context_aware => false
  | _ => true

/-- A start and an end in a text. -/
abbrev Span := Nat × Nat

def Span.text (content : Text) (span : Span) : Text := (content.take span.2).drop span.1

/-! ### Exact and escaped -/

/-- The positions at which a pattern occurs, also those within an earlier occurrence. -/
def occurrences (pattern : Text) : Nat → Text → List Span
  | pos, [] => if pattern = [] then [(pos, pos)] else []
  | pos, c :: rest =>
    if pattern.isPrefixOf (c :: rest) then (pos, pos + pattern.length) :: occurrences pattern (pos + 1) rest
    else occurrences pattern (pos + 1) rest

def strategy_exact (content pattern : Text) : List Span := occurrences pattern 0 content

/-- `str.replace`, behind a number of characters that were replaced. -/
def replace_from (old new : Text) : Nat → Text → Text
  | _, [] => []
  | n + 1, _ :: rest => replace_from old new n rest
  | 0, c :: rest =>
    if old.isPrefixOf (c :: rest) then new ++ replace_from old new (old.length - 1) rest else c :: replace_from old new 0 rest

/-- `str.replace` of a pattern that is not empty. -/
def replace (old new content : Text) : Text := replace_from old new 0 content

def unescape (text : Text) : Text :=
  replace ['\\', 'r'] ['\r'] (replace ['\\', 't'] ['\t'] (replace ['\\', 'n'] ['\n'] text))

def strategy_escape_normalized (content pattern : Text) : List Span :=
  if unescape pattern = pattern then [] else strategy_exact content (unescape pattern)

/-! ### Lines -/

/-- The sum of the lengths of the first lines, with their line feeds. -/
def line_start (lines : List Text) (i : Nat) : Nat := ((lines.take i).map fun line => line.length + 1).sum

/-- The span of `n` lines from line `i`. -/
def line_span (content : Text) (lines : List Text) (i n : Nat) : Span :=
  (line_start lines i, min (line_start lines (i + n) - 1) content.length)

/-- The blocks of `n` lines that satisfy `p`. -/
def blocks (content : Text) (lines : List Text) (n : Nat) (p : Nat → Bool) : List Span :=
  ((List.range (lines.length + 1 - n)).filter p).map fun i => line_span content lines i n

section Lines

variable (C : CharClass)

def find_normalized_matches (content : Text) (content_lines content_normalized_lines : List Text) (pattern_normalized : Text) : List Span :=
  let num_pattern_lines := (pattern_normalized.splitOn '\n').length
  blocks content content_lines num_pattern_lines fun i =>
    joinLines ((content_normalized_lines.drop i).take num_pattern_lines) = pattern_normalized

def strategy_line_trimmed (content pattern : Text) : List Span :=
  find_normalized_matches content (content.splitOn '\n') ((content.splitOn '\n').map (strip C))
    (joinLines ((pattern.splitOn '\n').map (strip C)))

def strategy_indentation_flexible (content pattern : Text) : List Span :=
  find_normalized_matches content (content.splitOn '\n') ((content.splitOn '\n').map (lstrip C))
    (joinLines ((pattern.splitOn '\n').map (lstrip C)))

/-- Strip the first line and the last one. -/
def trim_boundary : List Text → List Text
  | [] => []
  | [line] => [strip C line]
  | first :: second :: rest => strip C first :: ((second :: rest).dropLast ++ [strip C ((second :: rest).getLastD [])])

def strategy_trimmed_boundary (content pattern : Text) : List Span :=
  let content_lines := content.splitOn '\n'
  let pattern_lines := trim_boundary C (pattern.splitOn '\n')
  blocks content content_lines pattern_lines.length fun i =>
    joinLines (trim_boundary C ((content_lines.drop i).take pattern_lines.length)) = joinLines pattern_lines

end Lines

/-! ### Blanks -/

def blank (c : Char) : Bool := c = ' ' || c = '\t'

/-- `re.sub(r"[ \t]+", " ", s)`, behind a blank or not. -/
def collapse : Bool → Text → Text
  | _, [] => []
  | behind, c :: rest =>
    if blank c then if behind then collapse true rest else ' ' :: collapse true rest
    else c :: collapse false rest

def normalize (text : Text) : Text := collapse false text

/-- For each character of the original, its position in the normalized text. -/
def orig_to_norm : Text → Text → Nat → List Nat
  | [], _, _ => []
  | _ :: original, [], norm_idx => norm_idx :: orig_to_norm original [] norm_idx
  | o :: original, m :: normalized, norm_idx =>
    if o = m then norm_idx :: orig_to_norm original normalized (norm_idx + 1)
    else if blank o && m = ' ' then
      -- Wait until all blanks are consumed.
      norm_idx :: if original.head?.any (!blank ·) then orig_to_norm original normalized (norm_idx + 1)
        else orig_to_norm original (m :: normalized) norm_idx
    else norm_idx :: orig_to_norm original (m :: normalized) norm_idx

/-- The first place of a value. -/
def first_at (positions : List Nat) (value : Nat) : Option Nat := positions.findIdx? (· = value)

/-- The last place of a value. -/
def last_at (positions : List Nat) (value : Nat) : Option Nat :=
  (positions.reverse.findIdx? (· = value)).map fun i => positions.length - 1 - i

def expand_blanks (original : Text) (orig_end : Nat) : Nat := orig_end + ((original.drop orig_end).takeWhile blank).length

def map_normalized_position (original : Text) (positions : List Nat) (normalized_match : Span) : Span :=
  let orig_start := (first_at positions normalized_match.1).getD (positions.findIdx (normalized_match.1 ≤ ·))
  let orig_end := ((last_at positions (normalized_match.2 - 1)).map (· + 1)).getD
    (orig_start + (normalized_match.2 - normalized_match.1))
  (orig_start, min (expand_blanks original orig_end) original.length)

def map_normalized_positions (original normalized : Text) (normalized_matches : List Span) : List Span :=
  normalized_matches.map (map_normalized_position original (orig_to_norm original normalized 0))

def strategy_whitespace_normalized (content pattern : Text) : List Span :=
  map_normalized_positions content (normalize content) (strategy_exact (normalize content) (normalize pattern))

/-! ### Guesses -/

section Guesses

variable (M : Measure) (C : CharClass)

def unicode_map : List (Char × Text) :=
  [('\u201c', ['"']), ('\u201d', ['"']), ('\u2018', ['\'']), ('\u2019', ['\'']), ('\u2014', ['-', '-']), ('\u2013', ['-']),
    ('\u2026', ['.', '.', '.']), ('\u00a0', [' '])]

def unicode_normalize (text : Text) : Text :=
  unicode_map.foldl (fun text (char, repl) => text.flatMap fun c => if c = char then repl else [c]) text

def strategy_block_anchor (cfg : FuzzyConfig) (content pattern : Text) : List Span :=
  let pattern_lines := (unicode_normalize pattern).splitOn '\n'
  let n := pattern_lines.length
  if n < 2 then []
  else
    let norm_content_lines := (unicode_normalize content).splitOn '\n'
    let line (i : Nat) := strip C (norm_content_lines[i]?.getD [])
    let potential_matches := (List.range (norm_content_lines.length + 1 - n)).filter fun i =>
      line i = strip C (pattern_lines.headD []) && line (i + n - 1) = strip C (pattern_lines.getLastD [])
    let threshold :=
      if potential_matches.length = 1 then cfg.block_anchor_threshold
      else if cfg.block_anchor_threshold < 0.6 then 0.6 else cfg.block_anchor_threshold
    let similarity (i : Nat) :=
      if n ≤ 2 then 1.0
      else M.ratio (joinLines ((norm_content_lines.drop (i + 1)).take (n - 2))) (joinLines ((pattern_lines.drop 1).take (n - 2)))
    (potential_matches.filter fun i => threshold ≤ similarity i).map fun i => line_span content (content.splitOn '\n') i n

def strategy_context_aware (cfg : FuzzyConfig) (content pattern : Text) : List Span :=
  let pattern_lines := pattern.splitOn '\n'
  let content_lines := content.splitOn '\n'
  let n := pattern_lines.length
  blocks content content_lines n fun i =>
    let block_lines := (content_lines.drop i).take n
    let high_similarity_count := (pattern_lines.zip block_lines).countP fun (p_line, c_line) =>
      0.80 ≤ M.ratio (strip C p_line) (strip C c_line)
    !(Float.ofNat high_similarity_count < Float.ofNat n * cfg.context_aware_line_fraction) &&
      !(0.0 < cfg.context_aware_min_similarity &&
        M.ratio (strip C pattern) (strip C (joinLines block_lines)) < cfg.context_aware_min_similarity)

end Guesses

/-! ### The chain -/

structure NearMiss where
  similarity : Float
  snippet : Text
  line_number : Nat

structure FuzzyMatchResult where
  content : Text
  count : Nat
  error : Option Text := none
  strategy : Option Strategy := none
  similarity : Option Float := none
  near_miss : Option NearMiss := none

section Chain

variable (M : Measure) (C : CharClass)

def Strategy.spans (cfg : FuzzyConfig) (content pattern : Text) : Strategy → List Span
  | exact => strategy_exact content pattern
  | line_trimmed => strategy_line_trimmed C content pattern
  | whitespace_normalized => strategy_whitespace_normalized content pattern
  | indentation_flexible => strategy_indentation_flexible C content pattern
  | escape_normalized => strategy_escape_normalized content pattern
  | trimmed_boundary => strategy_trimmed_boundary C content pattern
  | block_anchor => strategy_block_anchor M C cfg content pattern
  | context_aware => strategy_context_aware M C cfg content pattern

def FuzzyConfig.strategies (cfg : FuzzyConfig) : List Strategy :=
  [.exact] ++
    (if cfg.allow_structural then
      [.line_trimmed, .whitespace_normalized, .indentation_flexible, .escape_normalized, .trimmed_boundary] else []) ++
    if cfg.allow_fuzzy && cfg.allow_structural then [.block_anchor, .context_aware] else []

/-- From the last span to the first, so that the positions of the others stay. -/
def apply_replacements (content : Text) (spans : List Span) (new_string : Text) : Text :=
  (spans.mergeSort fun x y => y.1 ≤ x.1).foldl (fun result (start, stop) => result.take start ++ new_string ++ result.drop stop) content

def match_similarity (content pattern : Text) (spans : List Span) (strategy : Strategy) : Float :=
  if strategy.structural then 1.0
  else
    M.round (spans.foldl (fun worst span =>
      let ratio := M.ratio (strip C pattern) (strip C (span.text content))
      if ratio < worst then ratio else worst) 1.0)

def closest_region (content pattern : Text) : Option NearMiss :=
  let content_lines := content.splitOn '\n'
  let window := max 1 (pattern.splitOn '\n').length
  if content_lines.all (· = []) then none
  else
    let (best_ratio, best_start) := (List.range (content_lines.length - window + 1)).foldl (fun (best_ratio, best_start) i =>
      let ratio := M.ratio (strip C pattern) (strip C (joinLines ((content_lines.drop i).take window)))
      if best_ratio < ratio then (ratio, i) else (best_ratio, best_start)) (-1.0, 0)
    let snippet := joinLines ((content_lines.drop best_start).take (min window 12))
    some {
      similarity := M.round (if best_ratio < 0.0 then 0.0 else best_ratio)
      snippet := if 800 < snippet.length then snippet.take 800 ++ [' ', '…'] else snippet
      line_number := best_start + 1 }

def NearMiss.suffix (near_miss : NearMiss) : Text :=
  s!" Closest region (similarity {M.repr near_miss.similarity}) at line {near_miss.line_number}:\n".toList ++ near_miss.snippet

def fuzzy_find_and_replace_ex (content old_string new_string : Text) (replace_all : Bool) (cfg : FuzzyConfig) : FuzzyMatchResult :=
  if old_string = [] then { content := content, count := 0, error := some "old_string cannot be empty".toList }
  else if old_string = new_string then
    { content := content, count := 0, error := some "old_string and new_string are identical".toList }
  else
    match cfg.strategies.find? fun strategy => !(strategy.spans M C cfg content old_string).isEmpty with
    | some strategy =>
      let spans := strategy.spans M C cfg content old_string
      if 1 < spans.length && !replace_all then
        { content := content, count := 0,
          error := some s!"Found {spans.length} matches for old_string. Provide more context to make it unique, or use replace_all=True.".toList }
      else
        { content := apply_replacements content spans new_string, count := spans.length, strategy := some strategy
          similarity := some (match_similarity M C content old_string spans strategy) }
    | none =>
      let near_miss := closest_region M C content old_string
      { content := content, count := 0, near_miss := near_miss
        error := some ("Could not find a match for old_string in the file.".toList ++ near_miss.elim [] (·.suffix M)) }

end Chain

end LeanFlow.Patches
