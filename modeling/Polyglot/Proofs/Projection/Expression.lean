import Polyglot.Proofs.FrontMatter
import Polyglot.Proofs.Number.Text
import Polyglot.Proofs.Projection.DataLiteral
import Polyglot.Proofs.Typed.Expr
import Polyglot.Proofs.Typed.Quoted

/-!
# The literal is an expression

What is written between the preamble and the check reads as the tokens of one tree, which has the shape
of the data (`Document.expr`). It derives from the grammar of expressions unless a key is a negative
number, which is no property name (`write_derives_iff`).
-/

namespace Polyglot

open Typed

namespace Data

/-! ## The tree of the data -/

/-- The value as an expression. -/
def Value.expr : Value → Expr
  | .text s => .value (.text (Text.quoteSafeBody s))
  | .date s => .date (Text.quoteSafeBody s)
  | v => .value (.word v.literal.toList)

/-- The value as a property name. -/
def Value.keyToken : Value → Token
  | .text s | .date s => .text (Text.quoteBody s)
  | v => .word v.key.toList

mutual

/-- A mapping is an object and a sequence an array. -/
def Tree.expr : Tree → Expr
  | .scalar x => x.value.expr
  | .mapping _ _ pairs => .object (pairExprs pairs)
  | .sequence _ _ items => .array (itemExprs items)

def Tree.pairExprs : List (Scalar × Tree) → List (Token × Expr)
  | [] => []
  | (key, value) :: rest => (key.value.keyToken, value.expr) :: pairExprs rest

def Tree.itemExprs : List Tree → List Expr
  | [] => []
  | item :: rest => item.expr :: itemExprs rest

end

/-- The tree of a document; an empty object if it has no root or its root is null. -/
def Document.expr (d : Document) : Expr :=
  match d.root with
  | none => .object []
  | some (.scalar x) => if x.isNull then .object [] else x.value.expr
  | some root => root.expr

/-- The value is written with a minus that belongs to a number. -/
def Value.isNegativeNumber : Value → Bool
  | .int n => n < 0
  | .float x => x.isFinite && x.isNegative
  | _ => false

/-- A key that is a negative number. -/
def Leaf.isNegativeKey : Leaf → Bool
  | .key x => x.value.isNegativeNumber
  | .value _ => false

/-! ## Values and keys -/

variable {key : Token → Prop}

theorem isValue_null : IsValue (.word "null".toList) := .inr (.inr (by decide +kernel))

theorem isValue_bool (b : Bool) : IsValue (.word (Value.bool b).literal.toList) := by
  refine .inr (.inr ?_)
  cases b <;> decide +kernel

theorem isValue_int (n : ℤ) : IsValue (.word (Value.int n).literal.toList) := by
  show IsValue (.word (toString n).toList)
  rw [toList_toString]
  exact isValue_signed (isNumber_toDigits _)

theorem isValue_float (x : Double) : IsValue (.word (Value.float x).literal.toList) := by
  show IsValue (.word (NumberFormat.script.write x).toList)
  rcases hx : x.isFinite with _ | _
  · have hwords : ∀ s ∈ ["NaN", "Infinity", "-" ++ "Infinity"], s.toList ∈ constants := by
      decide +kernel
    exact .inr (.inr (hwords _ (NumberFormat.write_of_not_isFinite _ hx)))
  · obtain ⟨body, hbody, hwrite⟩ := NumberFormat.script.write_finite hx
    rw [hwrite]
    exact isValue_signed hbody

theorem Value.expr_wellFormed (v : Value) : v.expr.WellFormed key := by
  cases v with
  | null => exact isValue_null
  | bool b => exact isValue_bool b
  | int n => exact isValue_int n
  | float x => exact isValue_float x
  | text s => trivial
  | date s => trivial

theorem isName_null : IsName "null".toList := ⟨by decide, by decide⟩

/-- Negative numbers are the only keys that are no property names. -/
theorem Value.isKey_iff (v : Value) : IsKey v.keyToken ↔ v.isNegativeNumber = false := by
  cases v with
  | null => exact iff_of_true (.inl isName_null) rfl
  | bool b => cases b <;> exact iff_of_true (.inl ⟨by decide, by decide⟩) rfl
  | int n =>
    show IsKey (.word (toString n).toList) ↔ decide (n < 0) = false
    rw [toList_toString, isKey_signed_iff (isNumber_toDigits _), decide_eq_false_iff_not]
  | float x =>
    show IsKey (.word (Value.float x).key.toList) ↔ (x.isFinite && x.isNegative) = false
    rcases hx : x.isFinite with _ | _
    · simp only [Value.key, hx]
      exact iff_of_true (.inl isName_null) rfl
    · obtain ⟨body, hbody, hwrite⟩ := NumberFormat.script.write_finite hx
      simp only [Value.key, hx, if_true]
      rw [hwrite, isKey_signed_iff hbody, Bool.true_and, Bool.not_eq_true]
  | text s => exact iff_of_true trivial rfl
  | date s => exact iff_of_true trivial rfl

theorem Value.keyToken_ne_mark (v : Value) (c : Char) : v.keyToken ≠ .mark c := by
  cases v <;> exact nofun

theorem spellsLast_quote (s : String) : SpellsLast (Text.quote s).toList [.text (Text.quoteBody s)] := by
  rw [Text.toList_quote]
  exact (spells_text (Text.isStringBody_quoteBody s)).last

theorem spells_quoteSafe (s : String) :
    Spells (Text.quoteSafe s).toList [.text (Text.quoteSafeBody s)] := by
  rw [Text.toList_quoteSafe]
  exact spells_text (Text.isStringBody_quoteSafeBody s)

theorem spells_date (s : String) :
    Spells (Value.date s).literal.toList (Expr.date (Text.quoteSafeBody s)).tokens := by
  have hopen : "new Date(".toList = ['n', 'e', 'w'] ++ ' ' :: (['D', 'a', 't', 'e'] ++ ['(']) := by
    decide
  have hnew : SpellsLast ['n', 'e', 'w'] [.word ['n', 'e', 'w']] :=
    spellsLast_of_all (by decide) (by decide)
  have hdate : SpellsLast ['D', 'a', 't', 'e'] [.word ['D', 'a', 't', 'e']] :=
    spellsLast_of_all (by decide) (by decide)
  have hstring := (spells_quoteSafe s).append (Spells.nil.mark (by decide : ')' ∈ marks))
  show Spells ("new Date(" ++ Text.quoteSafe s ++ ")").toList _
  rw [String.toList_append, String.toList_append, hopen]
  simp only [List.cons_append, List.nil_append]
  exact hnew.append (by decide : ' ' ∈ delimiters) (.space (by decide)
    (hdate.append (by decide : '(' ∈ delimiters) (hstring.mark (by decide))))

theorem Value.spells_literal (v : Value) : SpellsLast v.literal.toList v.expr.tokens := by
  cases v with
  | null => exact spellsLast_of_isValue isValue_null
  | bool b => exact spellsLast_of_isValue (isValue_bool b)
  | int n => exact spellsLast_of_isValue (isValue_int n)
  | float x => exact spellsLast_of_isValue (isValue_float x)
  | text s => exact (spells_quoteSafe s).last
  | date s => exact (spells_date s).last

theorem Value.spells_key (v : Value) : SpellsLast v.key.toList [v.keyToken] := by
  cases v with
  | null => exact spellsLast_of_isValue isValue_null
  | bool b => exact spellsLast_of_isValue (isValue_bool b)
  | int n => exact spellsLast_of_isValue (isValue_int n)
  | float x =>
    refine spellsLast_of_isValue ?_
    show IsValue (.word (if x.isFinite then NumberFormat.script.write x else "null").toList)
    split_ifs
    · exact isValue_float x
    · exact isValue_null
  | text s => exact spellsLast_quote s
  | date s => exact spellsLast_quote s

/-! ## The shape of the tree -/

mutual

theorem Tree.expr_wellFormed_iff : ∀ t : Tree,
    t.expr.WellFormed key ↔ ∀ x, Leaf.key x ∈ t.leaves → key x.value.keyToken
  | .scalar x => by
    rw [Tree.expr, Tree.leaves]
    refine iff_of_true x.value.expr_wellFormed fun y hy => ?_
    split_ifs at hy <;> simp at hy
  | .mapping _ _ pairs => by
    rw [Tree.expr, Tree.leaves]
    exact Tree.pairsWellFormed_iff pairs
  | .sequence _ _ items => by
    rw [Tree.expr, Tree.leaves]
    exact Tree.itemsWellFormed_iff items

theorem Tree.pairsWellFormed_iff : ∀ pairs : List (Scalar × Tree),
    Expr.PairsWellFormed key (Tree.pairExprs pairs) ↔
      ∀ x, Leaf.key x ∈ Tree.pairLeaves pairs → key x.value.keyToken
  | [] => by
    rw [Tree.pairExprs, Tree.pairLeaves]
    exact iff_of_true trivial nofun
  | (k, value) :: rest => by
    rw [Tree.pairExprs, Tree.pairLeaves, Expr.PairsWellFormed, Tree.expr_wellFormed_iff value,
      Tree.pairsWellFormed_iff rest]
    simp only [List.cons_append, List.mem_cons, List.mem_append, Leaf.key.injEq, or_imp, forall_and,
      forall_eq]

theorem Tree.itemsWellFormed_iff : ∀ items : List Tree,
    Expr.ItemsWellFormed key (Tree.itemExprs items) ↔
      ∀ x, Leaf.key x ∈ Tree.itemLeaves items → key x.value.keyToken
  | [] => by
    rw [Tree.itemExprs, Tree.itemLeaves]
    exact iff_of_true trivial nofun
  | item :: rest => by
    rw [Tree.itemExprs, Tree.itemLeaves, Expr.ItemsWellFormed, Tree.expr_wellFormed_iff item,
      Tree.itemsWellFormed_iff rest]
    simp only [List.mem_append, or_imp, forall_and]

end

theorem Document.expr_wellFormed_iff (d : Document) :
    d.expr.WellFormed key ↔ ∀ x, Leaf.key x ∈ d.leaves → key x.value.keyToken := by
  unfold Document.expr Document.leaves
  rcases d.root with _ | root
  · exact iff_of_true trivial nofun
  · have hroot : root.expr.WellFormed key ↔ _ := Tree.expr_wellFormed_iff root
    cases root with
    | scalar x =>
      refine iff_of_true ?_ (hroot.1 x.value.expr_wellFormed)
      show Expr.WellFormed key (if x.isNull then .object [] else x.value.expr)
      split_ifs
      · trivial
      · exact x.value.expr_wellFormed
    | mapping => exact hroot
    | sequence => exact hroot

/-- **Keys.** The tree of a document is one of the grammar unless one of its keys is a negative number. -/
theorem Document.expr_isKey_iff (d : Document) : d.expr.WellFormed IsKey ↔
    ∀ x, Leaf.key x ∈ d.leaves → x.value.isNegativeNumber = false := by
  rw [d.expr_wellFormed_iff]
  exact forall₂_congr fun x _ => x.value.isKey_iff

end Data

namespace DataLiteral

open Data Piece

/-! ## What is written reads as the tree -/

/-- The pieces read as these tokens, whatever is written behind them. -/
def Forms (ps : List Piece) (ts : List Token) : Prop := Spells (textOf ps).toList ts

variable {ps qs : List Piece} {ts us : List Token} {t : String}

theorem Forms.nil : Forms [] [] := Spells.nil

theorem Forms.scaffold (ht : Spells t.toList ts) (h : Forms ps us) :
    Forms (.scaffold t :: ps) (ts ++ us) := by
  rw [Forms, textOf, String.toList_append]
  exact ht.append h

theorem Forms.append (hp : Forms ps ts) (hq : Forms qs us) : Forms (ps ++ qs) (ts ++ us) := by
  rw [Forms, textOf_append, String.toList_append]
  exact Spells.append hp hq

/-- A key or a value is followed by scaffolding that ends it. -/
theorem Forms.leaf {p : Piece} {c : Char} {cs : List Char} (h : Forms (.scaffold t :: ps) us)
    (hp : SpellsLast p.text.toList ts) (ht : t.toList = c :: cs) (hc : c ∈ delimiters) :
    Forms (p :: .scaffold t :: ps) (ts ++ us) := by
  rw [Forms, textOf, String.toList_append] at h ⊢
  rw [textOf, String.toList_append]
  have ht : (Piece.scaffold t).text.toList = c :: cs := ht
  rw [ht, List.cons_append] at h ⊢
  exact hp.append hc h

theorem spells_scalarPiece (x : Scalar) :
    SpellsLast (scalarPiece x).text.toList x.value.expr.tokens := by
  have htext : (scalarPiece x).text = x.value.literal := by
    unfold scalarPiece
    split_ifs with hnull
    · rw [(eq_of_beq hnull : x.value = .null)]
      rfl
    · rfl
  rw [htext]
  exact x.value.spells_literal

theorem forms_feed : Forms [.scaffold "\n"] [] := by
  have hfeed : Spells "\n".toList [] := Spells.nil.space (by decide)
  exact Forms.nil.scaffold hfeed

theorem forms_bracket {c : Char} (ht : t.toList = [c, '\n']) (hc : c ∈ marks) (h : Forms ps ts) :
    Forms (.scaffold t :: ps) (.mark c :: ts) := by
  have hspells : Spells [c, '\n'] [.mark c] := (Spells.nil.space (by decide)).mark hc
  exact h.scaffold (ht ▸ hspells)

theorem forms_close {c : Char} (ht : t.toList = [c, ',', '\n']) (hc : c ∈ marks) :
    Forms [.scaffold t] [.mark c, .mark ','] := by
  have hspells : Spells [c, ',', '\n'] [.mark c, .mark ','] :=
    ((Spells.nil.space (by decide)).mark (by decide)).mark hc
  exact Forms.nil.scaffold (ht ▸ hspells)

mutual

theorem memberPieces_forms {scalarEnd : String} {cs : List Char} (hend : scalarEnd.toList = ',' :: cs)
    (hcs : Spells cs []) : ∀ t : Tree,
      Forms (memberPieces scalarEnd t) (t.expr.tokens ++ [.mark ','])
  | .scalar x => by
    rw [memberPieces, Tree.expr]
    have hcomma : Spells scalarEnd.toList [.mark ','] := hend ▸ hcs.mark (by decide)
    exact (Forms.nil.scaffold hcomma).leaf (spells_scalarPiece x) hend (by decide)
  | .mapping _ _ pairs => by
    rw [memberPieces, Tree.expr, Expr.tokens, List.cons_append, List.cons_append, List.append_assoc]
    exact forms_bracket (by decide) (by decide)
      ((pairPieces_forms pairs).append (forms_close (by decide) (by decide)))
  | .sequence _ _ items => by
    rw [memberPieces, Tree.expr, Expr.tokens, List.cons_append, List.cons_append, List.append_assoc]
    have hopen : Spells "[".toList [.mark '['] := Spells.nil.mark (by decide)
    exact ((itemPieces_forms items).append (forms_close (by decide) (by decide))).scaffold hopen

theorem pairPieces_forms : ∀ pairs : List (Scalar × Tree),
    Forms (pairPieces pairs) (Expr.pairTokens (Tree.pairExprs pairs))
  | [] => by
    rw [pairPieces, Tree.pairExprs, Expr.pairTokens]
    exact Forms.nil
  | (key, value) :: rest => by
    rw [pairPieces, Tree.pairExprs, Expr.pairTokens]
    have hvalue : Forms (memberPieces ",\n" value) (value.expr.tokens ++ [.mark ',']) :=
      memberPieces_forms rfl (Spells.nil.space (by decide : '\n' ∈ spaces)) value
    have hcolon : Spells ": ".toList [.mark ':'] :=
      (Spells.nil.space (by decide : ' ' ∈ spaces)).mark (by decide)
    have hrest := (hvalue.append (pairPieces_forms rest)).scaffold hcolon
    rw [List.append_assoc] at hrest
    have hkey : SpellsLast (Piece.token key.span key.key).text.toList [key.value.keyToken] :=
      key.value.spells_key
    exact hrest.leaf hkey (by decide : ": ".toList = [':', ' ']) (by decide)

theorem itemPieces_forms : ∀ items : List Tree,
    Forms (itemPieces items) (Expr.itemTokens (Tree.itemExprs items))
  | [] => by
    rw [itemPieces, Tree.itemExprs, Expr.itemTokens]
    exact Forms.nil
  | item :: rest => by
    rw [itemPieces, Tree.itemExprs, Expr.itemTokens]
    have hitem : Forms (memberPieces "," item) (item.expr.tokens ++ [.mark ',']) :=
      memberPieces_forms rfl Spells.nil item
    have hall := hitem.append (itemPieces_forms rest)
    rwa [List.append_assoc] at hall

end

theorem forms_emptyObject : Forms [.scaffold "\x7b\x7d\n"] (Expr.object []).tokens := by
  have hspells : Spells ['\x7b', '\x7d', '\n'] [.mark '\x7b', .mark '\x7d'] :=
    ((Spells.nil.space (by decide)).mark (by decide)).mark (by decide)
  exact Forms.nil.scaffold ((by decide : "\x7b\x7d\n".toList = ['\x7b', '\x7d', '\n']) ▸ hspells)

theorem rootPieces_forms (d : Document) : Forms (rootPieces d.root) d.expr.tokens := by
  unfold Document.expr
  rcases d.root with _ | (x | ⟨flow, span, pairs⟩ | ⟨flow, span, items⟩)
  · exact forms_emptyObject
  · show Forms (if x.isNull then _ else _) (if x.isNull then Expr.object [] else x.value.expr).tokens
    split_ifs
    · exact forms_emptyObject
    · have hvalue := forms_feed.leaf (spells_scalarPiece x) (by decide : "\n".toList = ['\n']) (by decide)
      rwa [List.append_nil] at hvalue
  · show Forms (_ :: (pairPieces pairs ++ _)) (.mark _ :: (Expr.pairTokens (Tree.pairExprs pairs) ++ _))
    exact forms_bracket (by decide) (by decide)
      ((pairPieces_forms pairs).append (forms_bracket (by decide) (by decide) Forms.nil))
  · have hopen : Spells "[".toList [.mark '['] := Spells.nil.mark (by decide)
    show Forms (_ :: (itemPieces items ++ _)) (.mark _ :: (Expr.itemTokens (Tree.itemExprs items) ++ _))
    exact ((itemPieces_forms items).append (forms_bracket (by decide) (by decide) Forms.nil)).scaffold hopen

theorem anchorPieces_forms (line : Option (ℕ × Bool)) : Forms (anchorPieces line) [] := by
  unfold anchorPieces
  split
  · have hfeed := forms_feed
    rwa [Forms, textOf] at hfeed ⊢
  · exact Forms.nil

/-- The pieces behind the preamble. -/
def dataPieces (lines : List (ℕ × Bool)) (root : Option Tree) : List Piece :=
  anchorPieces lines.head? ++ rootPieces root ++
    (if 1 < lines.length then anchorPieces lines.getLast? else [])

theorem dataPieces_forms (lines : List (ℕ × Bool)) (d : Document) :
    Forms (dataPieces lines d.root) d.expr.tokens := by
  have hlast : Forms (if 1 < lines.length then anchorPieces lines.getLast? else []) [] := by
    split_ifs
    · exact anchorPieces_forms _
    · exact Forms.nil
  have hall := ((anchorPieces_forms lines.head?).append (rootPieces_forms d)).append hlast
  rwa [List.append_nil] at hall

/-- The text derives from the grammar by the tree of the data and by no other, as long as no key is a
negative number. -/
theorem derives_dataPieces_iff (lines : List (ℕ × Bool)) (d : Document) {e : Expr} :
    Derives e (textOf (dataPieces lines d.root)) ↔
      e = d.expr ∧ ∀ x, Leaf.key x ∈ d.leaves → x.value.isNegativeNumber = false := by
  have hlexes : Lexes (textOf (dataPieces lines d.root)).toList d.expr.tokens :=
    Spells.lexes (dataPieces_forms lines d)
  have hkeys : d.expr.WellFormed fun t => ∀ c, t ≠ .mark c :=
    d.expr_wellFormed_iff.2 fun x _ => x.value.keyToken_ne_mark
  constructor
  · intro he
    obtain rfl := he.unique hlexes hkeys
    exact ⟨rfl, d.expr_isKey_iff.1 he.wellFormed⟩
  · rintro ⟨rfl, hnumbers⟩
    exact ⟨d.expr_isKey_iff.2 hnumbers, hlexes⟩

theorem textOf_bodyPieces (lines : List (ℕ × Bool)) (root : Option Tree) :
    textOf (bodyPieces lines root) = preamble ++ textOf (dataPieces lines root) := by
  rw [bodyPieces, List.cons_append, List.cons_append, textOf]
  rfl

/-! ## What is written for a document -/

variable {s block : String} {document : Document}

/-- **Expressions.** For front matter that parses, what stands between the preamble and the check derives
from the grammar of expressions if and only if no key is a negative number, and then in one way: by a tree
of the shape of the data. -/
theorem write_derives_iff (hblock : (FrontMatter.scan s).blankFences s = some block)
    (hdocument : Document.ofText block = .ok document) (hvalid : document.isValid = true)
    (memory : Memory) (collection : String) : ∃ body mappings,
      write memory s (FrontMatter.scan s) collection =
        .ok (some ⟨preamble ++ body ++ satisfies collection, mappings, document.errors, false⟩,
          some ⟨preamble ++ body, mappings⟩) ∧
      ∀ e, Derives e body ↔
        e = document.expr ∧ ∀ x, Leaf.key x ∈ document.leaves → x.value.isNegativeNumber = false := by
  have hpresent : FrontMatter.scan s ≠ .absent := by
    intro habsent
    rw [habsent] at hblock
    cases hblock
  obtain ⟨block', content, hblock', hcontent⟩ := FrontMatter.exists_content hpresent
  obtain rfl := Option.some.inj (hblock.symm.trans hblock')
  let lines := contentLines block content (FrontMatter.scan s).isClosed
  let pieces := bodyPieces lines document.root
  have hholds : Holds (FrontMatter.scan s) s document (.ofPieces pieces) :=
    ⟨block, content, hblock, hcontent, hdocument, rfl⟩
  have hshows : Shows memory document (.ofPieces pieces) (.ofPieces pieces) false
    (some (.ofPieces pieces)) := .valid hvalid
  have htext : (Body.ofPieces pieces).text = preamble ++ textOf (dataPieces lines document.root) :=
    textOf_bodyPieces lines document.root
  refine ⟨textOf (dataPieces lines document.root), mappingsOf 0 pieces, ?_,
    fun e => derives_dataPieces_iff lines document⟩
  rw [← htext]
  exact write_eq_ok_iff.2 (.inr ⟨document, _, _, _, hholds, hshows, rfl⟩)

/-- Values of most kinds, in a list and in a mapping under the key 3. -/
def mixedValuesText : String := "---\na: [1, -2.5, ~]\n3: \x7bx: 2024-01-02, y: \"q\"\x7d\n---\n"

/-- Its block, the fences blanked. -/
def mixedValuesBlock : String := "   \na: [1, -2.5, ~]\n3: \x7bx: 2024-01-02, y: \"q\"\x7d\n   "

theorem write_derives_iff_mixedValues :
    (FrontMatter.scan mixedValuesText).blankFences mixedValuesText = some mixedValuesBlock ∧
      ∃ document, Document.ofText mixedValuesBlock = .ok document ∧ document.isValid = true ∧
        (∀ x, Leaf.key x ∈ document.leaves → x.value.isNegativeNumber = false) ∧
        ∃ body mappings, write none mixedValuesText (FrontMatter.scan mixedValuesText) "blog" =
            .ok (some ⟨preamble ++ body ++ satisfies "blog", mappings, document.errors, false⟩,
              some ⟨preamble ++ body, mappings⟩) ∧
          ∀ e, Derives e body ↔
            e = document.expr ∧ ∀ x, Leaf.key x ∈ document.leaves → x.value.isNegativeNumber = false := by
  have hblock : (FrontMatter.scan mixedValuesText).blankFences mixedValuesText =
      some mixedValuesBlock := by decide +kernel
  have hread : ((Document.ofText mixedValuesBlock).toOption.any fun d => d.isValid &&
      d.leaves.all fun leaf => !leaf.isNegativeKey) = true := by decide +kernel
  obtain ⟨document, hdocument, hread⟩ := exists_of_any_toOption hread
  obtain ⟨hvalid, hkeys⟩ := Bool.and_eq_true_iff.1 hread
  refine ⟨hblock, document, hdocument, hvalid, fun x hx => ?_,
    write_derives_iff hblock hdocument hvalid none "blog"⟩
  simpa [Leaf.isNegativeKey] using List.all_eq_true.1 hkeys _ hx

/-- A key that is a negative number. -/
def negativeKeyText : String := "---\n-1: a\n---\n"

/-- What is written for it. -/
def negativeKeyBody : Body where
  text := preamble ++ "\x7b\n-1: \"a\",\n\x7d\n"
  mappings := [⟨⟨4, 6⟩, ⟨60, 62⟩, dataCapabilities⟩, ⟨⟨8, 9⟩, ⟨64, 67⟩, dataCapabilities⟩]

/-- The front matter has no error, and what is written for it is no expression. -/
theorem not_derives_negativeKey :
    write none negativeKeyText (FrontMatter.scan negativeKeyText) "blog" =
        .ok (some ⟨negativeKeyBody.text ++ satisfies "blog", negativeKeyBody.mappings, [], false⟩,
          some negativeKeyBody) ∧
      ∃ body, negativeKeyBody.text = preamble ++ body ∧ ¬ ∃ e, Derives e body := by
  have hwrite : write none negativeKeyText (FrontMatter.scan negativeKeyText) "blog" =
      .ok (some ⟨negativeKeyBody.text ++ satisfies "blog", negativeKeyBody.mappings, [], false⟩,
        some negativeKeyBody) := by decide +kernel
  refine ⟨hwrite, "\x7b\n-1: \"a\",\n\x7d\n", rfl, ?_⟩
  rintro ⟨e, he⟩
  let key : Scalar := ⟨.int (-1), .plain, ⟨4, 6⟩, "-1"⟩
  let value : Scalar := ⟨.text "a", .plain, ⟨8, 9⟩, "a"⟩
  let document : Document := ⟨some (.mapping false ⟨4, 9⟩ [(key, .scalar value)]), []⟩
  have htext : "\x7b\n-1: \"a\",\n\x7d\n" = textOf (dataPieces [] document.root) := by decide +kernel
  rw [htext, derives_dataPieces_iff] at he
  have hkey : key.value.isNegativeNumber = false := he.2 key (.head _)
  exact absurd hkey (by decide)

end DataLiteral

end Polyglot
