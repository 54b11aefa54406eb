import Mathlib
import DocStore.Proofs.Query.Image
import DocStore.Proofs.Query.Parse

-- Queries are read back from their text: all that can be written, and all that were read from a
-- text before, but for those that ask for the negative infinity.
namespace DocStore.Query

-- Booleans, finite numbers, and texts without a quotation mark.
def Plain : Value → Prop
  | .bool _ => True
  | .float x => x.isFinite = true
  | .string s => '"' ∉ s.toList
  | _ => False

variable {q : Query}

theorem parse_render_of_writable (h : q.Writable) : parse q.render [] = .ok q := by
  have hscan : QueryReader.ofText q.render = ⟨q.tokens ++ [], 0⟩ := by
    have hrender : Token.scan (q.render.toList ++ []) = q.tokens ++ Token.scan [] :=
      scan_render h (by rintro _ ⟨⟩)
    rw [List.append_nil, Token.scan] at hrender
    rw [QueryReader.ofText, Token.ofText, hrender]
  have hread : ∀ params, (QueryReader.ofText q.render).readQuery params = (.ok q, ⟨[], 0⟩) := by
    intro params
    rw [QueryReader.readQuery, hscan]
    refine QueryReader.reads h _ _ _ ?_ (by rintro _ ⟨⟩)
    simp only [List.append_nil]
    omega
  simp [parse, hread]

-- A query whose names are words, and whose operands are plain, is read back from its text.
theorem parse_render (h : q.All (fun name => Token.ofText name = [.word name]) Plain) :
    parse q.render [] = .ok q := by
  refine parse_render_of_writable (h.imp (fun name hname => ?_) (fun v hv => ?_))
  · exact (Token.ofText_eq_word_iff name).mp hname
  · cases v with
    | float x => exact .inl hv
    | bool b => trivial
    | string s => exact hv
    | _ => cases hv

-- A query with links in links, a skip, a negative operand, and marks of the language in a text.
def catalogue : Query :=
  ⟨"com.ex.Book",
    [⟨"title", .start (.string "a") (some (.string "a (b) < c"))⟩, ⟨"on-loan", .present⟩,
      ⟨"rank", .greater (.float ⟨0xBFF8000000000000⟩)⟩, ⟨"new", .equal (.bool true)⟩],
    [⟨"com.ex.Author", [], [⟨"com.ex.Press", [⟨"city", .present⟩], []⟩]⟩, ⟨"com.ex.Copy", [], []⟩]⟩

theorem parse_render_of_catalogue :
    catalogue.All (fun name => Token.ofText name = [.word name]) Plain ∧
      parse catalogue.render [] = .ok catalogue := by
  have hnames : ∀ name ∈ ["com.ex.Book", "com.ex.Author", "com.ex.Press", "com.ex.Copy", "title",
      "on-loan", "rank", "new", "city"], Token.ofText name = [.word name] := by
    simp only [List.forall_mem_cons, List.not_mem_nil, false_imp_iff, implies_true, and_true]
    refine ⟨?_, ?_, ?_, ?_, ?_, ?_, ?_, ?_, ?_⟩ <;>
      exact Token.ofText_of_startsWord rfl (by decide +kernel)
        (List.all_eq_true.mp (by decide +kernel))
  have hpress : All (fun name => Token.ofText name = [.word name]) Plain
      ⟨"com.ex.Press", [⟨"city", .present⟩], []⟩ :=
    .intro (hnames _ (by decide)) (by simp [Predicate.operands, hnames]) (by simp)
  have hauthor : All (fun name => Token.ofText name = [.word name]) Plain
      ⟨"com.ex.Author", [], [⟨"com.ex.Press", [⟨"city", .present⟩], []⟩]⟩ :=
    .intro (hnames _ (by decide)) (by simp) (by simpa using hpress)
  have hcopy : All (fun name => Token.ofText name = [.word name]) Plain ⟨"com.ex.Copy", [], []⟩ :=
    .intro (hnames _ (by decide)) (by simp) (by simp)
  have hcatalogue : catalogue.All (fun name => Token.ofText name = [.word name]) Plain := by
    refine .intro (hnames _ (by decide)) ?_ (by simp [hauthor, hcopy])
    simp only [List.forall_mem_cons, Predicate.operands, Option.toList_some, List.not_mem_nil,
      false_imp_iff, implies_true, and_true, Plain]
    exact ⟨⟨hnames _ (by decide), by decide, by decide⟩, hnames _ (by decide),
      ⟨hnames _ (by decide), by decide⟩, hnames _ (by decide)⟩
  exact ⟨hcatalogue, parse_render hcatalogue⟩

theorem readable_of_parse {text : String} (h : parse text [] = .ok q) :
    QueryReader.Readable q := by
  unfold parse at h
  split at h
  · cases h
  · split at h
    · cases h
    · exact ((QueryReader.readUpTo_sound _).1 (QueryReader.sound_ofText text)
        (Prod.ext h rfl)).1

-- What was read from a text without parameters is read back from its own text, as long as no
-- operand is the negative infinity.
theorem parse_render_of_parse {text : String} (h : parse text [] = .ok q)
    (hoperands : q.All (fun _ => True) (· ≠ .float Double.negativeInfinity)) :
    parse q.render [] = .ok q := by
  refine parse_render_of_writable (((readable_of_parse h).and hoperands).imp
    (fun _ hname => hname.1) (fun v hv => ?_))
  exact hv.1.resolve_right hv.2

-- The negative infinity is read from a number that is too great, but has no word of its own.
set_option maxRecDepth 20000 in
theorem parse_render_negativeInfinity :
    let q : Query := ⟨"B", [⟨"a", .less (.float Double.negativeInfinity)⟩], []⟩
    parse "B(a<-1e400)" [] = .ok q ∧ parse q.render [] = .error (.expectedValue "ILLEGAL") := by
  constructor
  · cbv
  · cbv

end DocStore.Query
