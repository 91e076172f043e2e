import DocGraph.Proofs.Pattern.Binding
import DocGraph.Proofs.Pattern.Scan
import DocGraph.Proofs.Template.Policy

/-!
# DocGraph.Proofs.Pattern.Substitution

Templates read the sources of patterns as the patterns do.

* `PlainText`     — no literal and no class of a pattern has a dollar in it.
* `scan_source`   — the placeholders in the source of such a pattern are its named wildcards.
* `substitute_source`  — so values go into the source as they go into the pattern.
* `Reads.spelled`      — the values that a reading finds, with the literals, make up the text.
* `substitute_source_eq` — substitution and binding agree, and give a matched path back.
-/

namespace DocGraph
namespace Pattern

/-- No literal and no class of a pattern has a dollar in it. -/
structure PlainText (p : Pattern) : Prop where
  literals : ∀ s, .literal s ∈ p.tokens → '$' ∉ s.toList
  classes : ∀ negated body, .charClass negated body ∈ p.tokens → '$' ∉ body.toList

/-! ## The source of a pattern as a template -/

/-- The parts of a template that is written like a token. -/
def partsOf : Token → List Template.Part
  | .named name => [.placeholder ('*' :: name.toList) (Token.named name).spelling.toList]
  | t => t.spelling.toList.map .char

theorem toList_source (p : Pattern) :
    p.source.toList = p.tokens.flatMap fun t => t.spelling.toList := by
  rw [source, String.toList_join, List.flatMap_map]

theorem PlainText.dollar_notMem {p : Pattern} (h : p.PlainText) {t : Token} (ht : t ∈ p.tokens)
    (hname : t.name? = none) : '$' ∉ t.spelling.toList := by
  cases t with
  | literal s => exact h.literals s ht
  | charClass negated body =>
    have hbody := h.classes negated body ht
    cases negated <;> simp [Token.spelling, hbody]
  | named name => cases hname
  | _ => decide

theorem parses_tokens {ts : List Token}
    (hplain : ∀ t ∈ ts, t.name? = none → '$' ∉ t.spelling.toList)
    (hnames : ∀ name, .named name ∈ ts → Text.isIdentifier name = true) :
    Template.Parses (ts.flatMap fun t => t.spelling.toList) (ts.flatMap partsOf) := by
  induction ts with
  | nil => exact .nil
  | cons t ts ih =>
    have ih := ih (fun u hu => hplain u (List.mem_cons_of_mem _ hu))
      fun name hname => hnames name (List.mem_cons_of_mem _ hname)
    rw [List.flatMap_cons, List.flatMap_cons]
    cases t with
    | named name =>
      have hname : Template.IsName ('*' :: name.toList) :=
        .starred (by rw [String.ofList_toList]; exact hnames name List.mem_cons_self)
      have hspelling : (Token.named name).spelling.toList =
          '$' :: '\x7b' :: ('*' :: name.toList) ++ ['\x7d'] := Token.toList_spelling_named name
      have hparses := Template.Parses.dollar (.braced hname) ih
      rw [partsOf, hspelling, List.append_assoc, List.singleton_append]
      exact hparses
    | _ => exact ih.append_plain (hplain _ List.mem_cons_self rfl)

/-- The placeholders in the source of a pattern without dollars are its named wildcards. -/
theorem scan_source {source : String} {p : Pattern} (hp : compile source = .ok p)
    (hplain : p.PlainText) : Template.scan p.source.toList = p.tokens.flatMap partsOf := by
  have hparses := parses_tokens (fun t => hplain.dollar_notMem (t := t))
    fun _ hname => isIdentifier_of_compile hp hname
  rw [toList_source]
  exact hparses.eq_scan.symm

theorem get?_ofWildcards (b : Binding) (name : String) :
    (Variables.ofWildcards b).get? ("*" ++ name) = b.get? name := by
  have hnodup : ((b.toList.map fun e => ("*" ++ e.1, e.2)).map Prod.fst).Nodup := by
    rw [List.map_map, show Prod.fst ∘ (fun e : String × String => ("*" ++ e.1, e.2)) =
      ("*" ++ ·) ∘ Prod.fst from rfl, ← List.map_map]
    exact (Table.nodup_keys b).map fun _ _ h => (String.append_right_inj "*").1 h
  refine Option.ext fun v => ?_
  rw [Variables.ofWildcards, Table.get?_ofPairs hnodup, List.mem_map,
    Table.get?_eq_some_iff]
  constructor
  · rintro ⟨e, he, heq⟩
    obtain ⟨hname, rfl⟩ := Prod.mk.inj heq
    rw [← (String.append_right_inj "*").1 hname]
    exact he
  · exact fun h => ⟨(name, v), h, rfl⟩

theorem lookup_starred (b : Binding) (name : String) :
    (Variables.ofWildcards b).lookup (String.ofList ('*' :: name.toList)) =
      b.get? name := by
  rw [String.ofList_cons, String.ofList_toList]
  exact get?_ofWildcards b name

section

variable {b : Binding} {t : Token} (h : ∀ name, t = .named name → (b.get? name).isSome = true)

include h

theorem not_offends_partsOf : ∀ part ∈ partsOf t,
    ¬Template.Offends (Variables.ofWildcards b).lookup .strict part := by
  intro part hpart
  cases t with
  | named name =>
    rw [partsOf, List.mem_singleton] at hpart
    subst hpart
    rintro ⟨⟩
    next hnone =>
      rw [lookup_starred] at hnone
      have hsome := h name rfl
      rw [hnone] at hsome
      cases hsome
  | _ => exact Template.not_offends_of_mem_char hpart

theorem flatMap_filled_partsOf :
    (partsOf t).flatMap (Template.Part.filled (Variables.ofWildcards b).lookup) =
      (bindToken b t).spelling.toList := by
  cases t with
  | named name =>
    obtain ⟨v, hv⟩ := Option.isSome_iff_exists.1 (h name rfl)
    rw [partsOf, List.flatMap_singleton, Template.Part.filled, lookup_starred, hv,
      bindToken_of_some hv]
    rfl
  | _ => exact Template.flatMap_filled_char _ _

end

theorem toList_source_bind (p : Pattern) (b : Binding) :
    (p.bind b).source.toList = p.tokens.flatMap fun t => (bindToken b t).spelling.toList := by
  rw [toList_source, tokens_bind, spelling_joinLiterals, List.flatMap_map]

theorem substitute_source {source : String} {p : Pattern} (hp : compile source = .ok p)
    (hplain : p.PlainText) {b : Binding} (hb : ∀ name ∈ p.names, (b.get? name).isSome = true) :
    Template.substitute p.source (Variables.ofWildcards b).lookup =
      .ok (p.bind b).source := by
  have hvalue : ∀ t ∈ p.tokens, ∀ name, t = .named name → (b.get? name).isSome = true :=
    fun t ht name heq => hb name (mem_names.2 (heq ▸ ht))
  refine Template.render_eq_ok_iff.2 ⟨fun part hpart => ?_, ?_⟩
  · rw [scan_source hp hplain] at hpart
    obtain ⟨t, ht, hpart⟩ := List.mem_flatMap.1 hpart
    exact not_offends_partsOf (hvalue t ht) part hpart
  · rw [Template.filled, scan_source hp hplain, List.flatMap_assoc,
      List.flatMap_congr fun t ht => flatMap_filled_partsOf (hvalue t ht), ← toList_source_bind,
      String.ofList_toList]

/-! ## Values that were found -/

/-- A text is made up of the literals and the values that a reading finds, if there are no other
tokens. -/
theorem Reads.spelled {b : Binding} {ts : List Token} {found f : Found} {q : List Char}
    (h : Reads ts found q f) (hts : ∀ t ∈ ts, t.isLiteral = true ∨ t.name?.isSome = true)
    (hb : ∀ name v, value? f name = some v → b.get? name = some (String.ofList v)) :
    q = ts.flatMap fun t => (bindToken b t).spelling.toList := by
  induction h with
  | nil => rfl
  | @cons t ts found f piece rest ht hr ih =>
    rw [List.flatMap_cons, ← ih (fun u hu => hts u (List.mem_cons_of_mem _ hu)) hb]
    refine congrArg (· ++ rest) ?_
    cases t with
    | literal s => exact ht
    | named name =>
      have hvalue := hb name piece (value?_mono hr.extends_found (value?_record ht))
      rw [bindToken_of_some hvalue]
      exact String.toList_ofList.symm
    | _ => exact absurd (hts _ List.mem_cons_self) (by simp [Token.isLiteral, Token.name?])

/-- A path is the source of the pattern with the values in place that it was matched with, if all
wildcards have names. -/
theorem source_bind_of_captures {p : Pattern} {path : String} {vals : List String}
    (hts : ∀ t ∈ p.tokens, t.isLiteral = true ∨ t.name?.isSome = true)
    (h : p.captures path = some vals) :
    (p.bind (Table.ofPairs (p.names.zip vals))).source = path := by
  obtain ⟨f, hf, hnames, rfl⟩ := names_of_captures h
  have hzip : p.names.zip (f.map fun e => String.ofList e.2) =
      f.map fun e => (e.1, String.ofList e.2) := by
    rw [← hnames, List.zip_map']
  have hnodup : ((f.map fun e => (e.1, String.ofList e.2)).map Prod.fst).Nodup := by
    rw [List.map_map]
    exact hnames ▸ p.nodup_names
  refine String.toList_inj.1 ?_
  rw [toList_source_bind, hzip]
  refine (hf.spelled hts fun name v hv => ?_).symm
  obtain ⟨l₁, l₂, rfl, -⟩ := List.lookup_eq_some_iff.1 hv
  exact (Table.get?_ofPairs hnodup).2 (List.mem_map.2 ⟨(name, v), by simp, rfl⟩)

/-- Filling the source of a pattern in as a template comes to binding the pattern. With the values
that a match gave, it gives the path back if all wildcards have names. -/
theorem substitute_source_eq {source : String} {p : Pattern} (hp : compile source = .ok p)
    (hplain : p.PlainText) :
    (∀ b : Binding, (∀ name ∈ p.names, (b.get? name).isSome = true) →
      Template.substitute p.source (Variables.ofWildcards b).lookup =
        .ok (p.bind b).source) ∧
    ((∀ t ∈ p.tokens, t.isLiteral = true ∨ t.name?.isSome = true) → ∀ path vals,
      p.captures path = some vals →
      Template.substitute p.source
        (Variables.ofWildcards (Table.ofPairs (p.names.zip vals))).lookup = .ok path) := by
  refine ⟨fun b hb => substitute_source hp hplain hb, fun hts path vals h => ?_⟩
  have hcovers := Binding.covers_ofPairs p.nodup_names (captures_length h)
  rw [substitute_source hp hplain fun name hname => (hcovers name).2 hname,
    source_bind_of_captures hts h]

/-- A name that occurs twice and one whose value is empty. -/
def doubled : Pattern :=
  ⟨[.named "a", .literal "-", .named "b", .literal "/", .named "a", .literal ".tex"], by decide⟩

theorem substitute_source_eq_doubled :
    compile "$\x7b*a\x7d-$\x7b*b\x7d/$\x7b*a\x7d.tex" = .ok doubled ∧ doubled.PlainText ∧
    doubled.captures "$x-/$x.tex" = some ["$x", ""] ∧
    Template.substitute doubled.source
      (Variables.ofWildcards (Table.ofPairs [("a", "$x"), ("b", "")])).lookup =
        .ok "$x-/$x.tex" := by
  have hcompile : compile "$\x7b*a\x7d-$\x7b*b\x7d/$\x7b*a\x7d.tex" = .ok doubled := by
    decide +kernel
  have hliterals : ∀ t ∈ doubled.tokens, t.name? = none → '$' ∉ t.spelling.toList := by decide
  have hplain : doubled.PlainText :=
    ⟨fun s hs => hliterals (.literal s) hs rfl,
      fun negated body hbody => by simp [doubled] at hbody⟩
  have hcaptures : doubled.captures "$x-/$x.tex" = some ["$x", ""] := by decide +kernel
  exact ⟨hcompile, hplain, hcaptures,
    (substitute_source_eq hcompile hplain).2 (by decide) _ _ hcaptures⟩

end Pattern
end DocGraph
