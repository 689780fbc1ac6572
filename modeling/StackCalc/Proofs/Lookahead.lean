import StackCalc.Proofs.Layout

/-!
What a scan reads and what it has told. Tokens are pulled from a scan one by one. To tell a word or a number the scan
reads one character beyond it, if there is one, and it reads nothing beyond a sign. As long as no pull has asked for
the end of the source, the replies depend on the characters that were read only, so that every source that begins with
them gives the same replies, also one that never ends.
-/

namespace StackCalc

/-- What one pull from a scan gives. -/
inductive Reply where
  | token (token : Token)
  | fault (error : ScanError)
  /-- The source has ended, or the scan has stopped at a fault. -/
  | nothing
deriving DecidableEq, Repr

namespace Tokens

/-- The reply to pull number `k`, counting from zero, and the number of characters that are read by then. After a fault
    or the end no more is read. -/
def reply : Tokens → Nat → Reply × Nat
  | cons t read _, 0 => (.token t, read)
  | cons _ _ rest, k + 1 => rest.reply k
  | fault error read, 0 => (.fault error, read)
  | fault _ read, _ + 1 => (.nothing, read)
  | done read, _ => (.nothing, read)

theorem reply_after (entries : List (Token × Nat)) (rest : Tokens) (k : Nat) :
    (after entries rest).reply k =
      match entries[k]? with
      | some entry => (.token entry.1, entry.2)
      | none => rest.reply (k - entries.length) := by
  induction entries generalizing k with
  | nil => rfl
  | cons entry entries ih =>
    cases k with
    | zero => rfl
    | succ k => simpa [after, reply] using ih k

theorem reply_prepend (tokens : List Token) (read : Nat) (rest : Tokens) (k : Nat) :
    (prepend tokens read rest).reply k =
      match tokens[k]? with
      | some t => (.token t, read)
      | none => rest.reply (k - tokens.length) := by
  rw [prepend_eq_after, reply_after, List.getElem?_map, List.length_map]
  cases tokens[k]? <;> rfl

end Tokens

/-! ### Pulling from a source -/

namespace Scan

/-- Pull number `k` from the rest of a source, of which `read` characters have been read: the reply, the characters read
    by then, and whether the end of the source has been asked for by then. -/
def pullFrom (s : State) (read k : Nat) : List Char → (Reply × Nat) × Bool
  | [] => ((s.finish read).reply k, true)
  | c :: rest =>
    let r := s.step c
    match r.1[k]? with
    | some t => ((.token t, read + 1), false)
    | none =>
      let more := k - r.1.length
      match r.2 with
      | .error error => ((if more = 0 then .fault error else .nothing, read + 1), false)
      | .ok state => pullFrom state (read + 1) more rest

/-- Pull number `k` from a source. -/
def pull (source : List Char) (k : Nat) : (Reply × Nat) × Bool :=
  pullFrom {} 0 k source

section PullFrom

theorem State.read_reply_finish (s : State) (read k : Nat) : ((s.finish read).reply k).2 = read := by
  unfold finish
  split
  · rfl
  all_goals cases k <;> rfl

variable (s : State) (read k : Nat)

theorem fst_pullFrom (text : List Char) : (pullFrom s read k text).1 = (run s read text).reply k := by
  fun_induction pullFrom s read k text with
  | case1 s read k => rfl
  | case2 s read k c text r t htoken => rw [run, Tokens.reply_prepend, htoken]
  | case3 s read k c text r htoken more error hstate =>
    rw [run, Tokens.reply_prepend, htoken, hstate]
    change _ = Tokens.reply _ more
    cases more <;> rfl
  | case4 s read k c text r htoken more state hstate ih =>
    rw [run, Tokens.reply_prepend, htoken, hstate]
    exact ih

theorem pullFrom_append {text : List Char} (h : (pullFrom s read k text).2 = false) (rest : List Char) :
    pullFrom s read k (text ++ rest) = pullFrom s read k text := by
  fun_induction pullFrom s read k text with
  | case1 s read k => cases h
  | case2 s read k c text r t htoken => rw [List.cons_append, pullFrom, htoken]
  | case3 s read k c text r htoken more error hstate => rw [List.cons_append, pullFrom, htoken, hstate]
  | case4 s read k c text r htoken more state hstate ih =>
    rw [List.cons_append, pullFrom, htoken, hstate]
    exact ih h

theorem lt_read_pullFrom {text : List Char} (h : (pullFrom s read k text).2 = false) :
    read < (pullFrom s read k text).1.2 := by
  fun_induction pullFrom s read k text with
  | case1 s read k => cases h
  | case2 | case3 => exact Nat.lt_succ_self _
  | case4 s read k c text r htoken more state hstate ih => exact Nat.lt_of_succ_lt (ih h)

theorem read_pullFrom {text : List Char} (h : (pullFrom s read k text).2 = true) :
    (pullFrom s read k text).1.2 = read + text.length := by
  fun_induction pullFrom s read k text with
  | case1 s read k => exact State.read_reply_finish s read k
  | case2 | case3 => cases h
  | case4 s read k c text r htoken more state hstate ih =>
    rw [ih h, List.length_cons, Nat.add_assoc, Nat.add_comm 1]

theorem pullFrom_asked_of_le {text : List Char} (h : (pullFrom s read k text).2 = false) {j : Nat} (hj : j ≤ k) :
    (pullFrom s read j text).2 = false := by
  induction text generalizing s read k j with
  | nil => cases h
  | cons c text ih =>
    rw [pullFrom] at h ⊢
    simp only at h ⊢
    cases htoken : (s.step c).1[j]? with
    | some t => rfl
    | none =>
      -- Pull `k` is not told by this character either, as it does not come before pull `j`.
      have hlength : (s.step c).1.length ≤ j := List.getElem?_eq_none_iff.mp htoken
      rw [List.getElem?_eq_none_iff.mpr (hlength.trans hj)] at h
      cases hstate : (s.step c).2 with
      | error error => rfl
      | ok state =>
        rw [hstate] at h
        exact ih _ _ _ h (Nat.sub_le_sub_right hj _)

theorem pullFrom_take {text : List Char} (h : (pullFrom s read k text).2 = false) :
    pullFrom s read k (text.take ((pullFrom s read k text).1.2 - read)) = pullFrom s read k text := by
  fun_induction pullFrom s read k text with
  | case1 s read k => cases h
  | case2 s read k c text r t htoken =>
    rw [Nat.add_sub_cancel_left, List.take_succ_cons, pullFrom, htoken]
  | case3 s read k c text r htoken more error hstate =>
    rw [Nat.add_sub_cancel_left, List.take_succ_cons, pullFrom, htoken, hstate]
  | case4 s read k c text r htoken more state hstate ih =>
    have hlt := lt_read_pullFrom _ _ _ h
    have hread : ∀ {n}, read + 1 < n → n - read = n - (read + 1) + 1 := by
      intro n hn
      omega
    rw [hread hlt, List.take_succ_cons, pullFrom, htoken, hstate]
    exact ih h

end PullFrom

variable {source : List Char} {k : Nat}

/-- A pull gives what the stream of the source holds. -/
theorem fst_pull (source : List Char) (k : Nat) : (pull source k).1 = (Tokens.scan source).reply k :=
  fst_pullFrom {} 0 k source

/-- A pull that has not asked for the end gives the same if the source goes on. -/
theorem pull_of_begins (h : (pull source k).2 = false) {longer : List Char} (hbegins : source <+: longer) :
    pull longer k = pull source k := by
  obtain ⟨rest, rfl⟩ := hbegins
  exact pullFrom_append {} 0 k h rest

/-- A pull that has asked for the end has read all characters. -/
theorem read_pull (h : (pull source k).2 = true) : (pull source k).1.2 = source.length :=
  (read_pullFrom {} 0 k h).trans (Nat.zero_add _)

theorem pull_asked_of_le (h : (pull source k).2 = false) {j : Nat} (hj : j ≤ k) : (pull source j).2 = false :=
  pullFrom_asked_of_le {} 0 k h hj

/-- A pull that has not asked for the end needs no character beyond those it has read. -/
theorem pull_take (h : (pull source k).2 = false) : pull (source.take (pull source k).1.2) k = pull source k :=
  pullFrom_take {} 0 k h

end Scan

/-! ### Sources that may never end -/

/-- The characters of a source, which ends or never ends. -/
inductive Feed where
  | ending (chars : List Char)
  | endless (char : Nat → Char)

namespace Feed

/-- The first `n` characters, or all if there are fewer. -/
def take (n : Nat) : Feed → List Char
  | ending chars => chars.take n
  | endless char => (List.range n).map char

/-- The first characters of a source tell the answer to pull number `k`, which is a reply and the number of characters
    read by then: the end of the source is not asked for. -/
def Tells (k : Nat) (answer : Reply × Nat) (feed : Feed) : Prop :=
  ∃ n, Scan.pull (feed.take n) k = (answer, false)

/-- Pull number `k` gives an answer. If the source never ends, its first characters have to tell the answer at some
    time, and it may be that they never do. -/
def Gives (k : Nat) (answer : Reply × Nat) : Feed → Prop
  | ending chars => (Tokens.scan chars).reply k = answer
  | endless char => (endless char).Tells k answer

theorem take_take {m n : Nat} (h : m ≤ n) (feed : Feed) : (feed.take n).take m = feed.take m := by
  cases feed with
  | ending chars => rw [take, take, List.take_take, Nat.min_eq_left h]
  | endless char => rw [take, take, ← List.map_take, List.take_range, Nat.min_eq_left h]

theorem take_begins {m n : Nat} (h : m ≤ n) (feed : Feed) : feed.take m <+: feed.take n :=
  ⟨(feed.take n).drop m, by rw [← take_take h, List.take_append_drop]⟩

theorem tells_ending_iff {chars : List Char} {k : Nat} {answer : Reply × Nat} :
    (ending chars).Tells k answer ↔ Scan.pull chars k = (answer, false) := by
  constructor
  · rintro ⟨n, hn⟩
    rw [← hn]
    exact Scan.pull_of_begins (by rw [hn]) ⟨chars.drop n, List.take_append_drop n chars⟩
  · intro h
    exact ⟨chars.length, by rwa [take, List.take_length]⟩

/-- An answer that the first characters tell is the only one. -/
theorem gives_iff {feed : Feed} {n k : Nat} (h : (Scan.pull (feed.take n) k).2 = false) (answer : Reply × Nat) :
    feed.Gives k answer ↔ answer = (Scan.pull (feed.take n) k).1 := by
  cases feed with
  | ending chars =>
    have hpull : Scan.pull chars k = Scan.pull (chars.take n) k :=
      Scan.pull_of_begins h ⟨chars.drop n, List.take_append_drop n chars⟩
    rw [Gives, take, ← hpull, Scan.fst_pull, eq_comm]
  | endless char =>
    constructor
    · rintro ⟨m, hm⟩
      have hasked : (Scan.pull (take m (endless char)) k).2 = false := by rw [hm]
      have hpull : Scan.pull (take m (endless char)) k = Scan.pull (take n (endless char)) k := by
        rcases Nat.le_total m n with hle | hle
        · exact (Scan.pull_of_begins hasked (take_begins hle _)).symm
        · exact Scan.pull_of_begins h (take_begins hle _)
      rw [← hpull, hm]
    · rintro rfl
      exact ⟨n, Prod.ext rfl h⟩

/-- The characters that are read tell the answers, also those to the pulls before. -/
theorem Tells.asked_eq {feed : Feed} {k : Nat} {answer : Reply × Nat} (h : feed.Tells k answer) {j : Nat} (hj : j ≤ k) :
    (Scan.pull (feed.take answer.2) j).2 = false := by
  obtain ⟨n, hn⟩ := h
  have hpull : Scan.pull (feed.take (max n answer.2)) k = (answer, false) := by
    rw [← hn]
    exact Scan.pull_of_begins (by rw [hn]) (take_begins (Nat.le_max_left _ _) feed)
  have htake : Scan.pull ((feed.take (max n answer.2)).take answer.2) k = (answer, false) := by
    have hread := @Scan.pull_take (feed.take (max n answer.2)) k (by rw [hpull])
    rwa [hpull] at hread
  rw [take_take (Nat.le_max_right _ _)] at htake
  exact Scan.pull_asked_of_le (by rw [htake]) hj

/-- Sources that share the characters read by a pull that has not asked for the end give the same answer to this pull
    and to those before it. -/
theorem Tells.exists_answer {feed other : Feed} {k : Nat} {answer : Reply × Nat} (h : feed.Tells k answer)
    (htake : other.take answer.2 = feed.take answer.2) {j : Nat} (hj : j ≤ k) :
    ∃ answer, ∀ answer', (feed.Gives j answer' ↔ answer' = answer) ∧ (other.Gives j answer' ↔ answer' = answer) := by
  have hasked := h.asked_eq hj
  refine ⟨(Scan.pull (feed.take answer.2) j).1, fun answer' => ⟨gives_iff hasked answer', ?_⟩⟩
  rw [← htake] at hasked ⊢
  exact gives_iff hasked answer'

end Feed

/-! ### How far a token is read -/

namespace Scan

theorem Denotes.eq_add_lookahead_iff {value : List Char} {a : Lexeme} (h : Denotes value a) {rest : List Char}
    {read stop : Nat} :
    read = stop + lookahead value rest ↔
      ((IsLetterRow value ∨ IsNumber value) ∧ rest.head?.isSome = true → read = stop + 1) ∧
        (¬((IsLetterRow value ∨ IsNumber value) ∧ rest.head?.isSome = true) → read = stop) := by
  obtain ⟨c, more, rfl, -, -, hletter, hdigit⟩ := h.exists_cons
  have hclass : c.isAlphanum = true ↔ IsLetterRow (c :: more) ∨ IsNumber (c :: more) := by
    rw [Char.isAlphanum, Bool.or_eq_true]
    refine ⟨Or.imp hletter hdigit, Or.imp (fun hrow => hrow.2 c (by simp)) fun hnumber => ?_⟩
    obtain ⟨_, _, heq, hc⟩ := hnumber.exists_cons
    rwa [(List.cons.inj heq).1]
  rw [← hclass, lookahead]
  by_cases hc : c.isAlphanum = true <;> cases rest <;> simp [hc]

theorem ends_head?_iff {value rest : List Char} : Ends value rest.head?.toList ↔ Ends value rest := by
  cases rest <;> exact Iff.rfl

theorem Piece.getElem?_entries {tail before : List Char} {pieces : List Piece} {k : Nat} {entry : Token × Nat} :
    (entries tail before pieces)[k]? = some entry ↔
      ∃ front p back, pieces = front ++ p :: back ∧ front.length = k ∧
        entry = (⟨p.lexeme, 1 + (before ++ front.flatMap text ++ p.gap).count '\n'⟩,
          (before ++ front.flatMap text ++ p.text).length + lookahead p.value (back.flatMap text ++ tail)) := by
  induction pieces generalizing before k with
  | nil => simp [entries]
  | cons q pieces ih =>
    cases k with
    | zero =>
      rw [entries, List.getElem?_cons_zero]
      constructor
      · rintro ⟨⟩
        exact ⟨[], q, pieces, rfl, rfl, by simp⟩
      · rintro ⟨front, p, back, heq, hfront, rfl⟩
        obtain rfl := List.length_eq_zero_iff.mp hfront
        obtain ⟨rfl, rfl⟩ := List.cons.inj heq
        simp
    | succ k =>
      rw [entries, List.getElem?_cons_succ, ih]
      constructor
      · rintro ⟨front, p, back, rfl, rfl, rfl⟩
        exact ⟨q :: front, p, back, rfl, rfl, by simp⟩
      · rintro ⟨front, p, back, heq, hfront, rfl⟩
        obtain ⟨first, front, rfl⟩ := List.exists_cons_of_length_eq_add_one hfront
        obtain ⟨rfl, rfl⟩ := List.cons.inj heq
        exact ⟨front, p, back, rfl, Nat.succ.inj hfront, by simp⟩

/-- After the layout of a source no token is told. -/
theorem Layout.exists_scan (source : List Char) :
    ∃ (l : Layout) (rest : List Char) (stream : Tokens), source = l.text ++ rest ∧
      (∀ p ∈ l.pieces.getLast?, Ends p.value (l.trail ++ rest)) ∧
      Tokens.scan source = .after (Piece.entries (l.trail ++ rest) [] l.pieces) stream ∧
      ∀ k t read, stream.reply k ≠ (.token t, read) := by
  rcases exists_layout source with ⟨l, rfl⟩ | ⟨l, rest, error, rfl, hstop⟩
  · have hends : l.trail = [] → ∀ p ∈ l.pieces.getLast?, Ends p.value [] := fun _ p _ => ⟨nofun, nofun⟩
    have hscan := l.scan_append hends
    rw [List.append_nil] at hscan
    exact ⟨l, [], _, (List.append_nil _).symm, fun p hp => l.ends_trail fun htrail => hends htrail p hp, hscan,
      fun k t read => nofun⟩
  · have hends : l.trail = [] → ∀ p ∈ l.pieces.getLast?, Ends p.value rest :=
      fun htrail p hp => hstop.ends fun hnumber => ⟨htrail, p, hp, hnumber⟩
    have hscan := l.scan_append hends
    obtain ⟨read, hfault⟩ := hstop.run l.text.length
    rw [hfault] at hscan
    refine ⟨l, rest, _, rfl, fun p hp => l.ends_trail fun htrail => hends htrail p hp, hscan, fun k t read => ?_⟩
    cases k <;> nofun

/-- The source up to the end of a piece that stands after others. -/
def Piece.upTo (front : List Piece) (p : Piece) : List Char :=
  front.flatMap text ++ p.text

/-- The tokens of a source are told by pieces with which it begins. -/
theorem reply_scan_eq_token {source : List Char} {k : Nat} {t : Token} {read : Nat} :
    (Tokens.scan source).reply k = (.token t, read) ↔
      ∃ (front : List Piece) (p : Piece) (rest : List Char), front.length = k ∧ (front ++ [p]).IsChain Piece.Apart ∧
        source = Piece.upTo front p ++ rest ∧ Ends p.value rest ∧
        t = ⟨p.lexeme, 1 + (front.flatMap Piece.text ++ p.gap).count '\n'⟩ ∧
        read = (Piece.upTo front p).length + lookahead p.value rest := by
  constructor
  · intro h
    obtain ⟨l, rest, stream, hsource, hlast, hscan, hstream⟩ := Layout.exists_scan source
    rw [hscan, Tokens.reply_after] at h
    split at h
    next entry hentry =>
      obtain ⟨front, p, back, hpieces, hfront, rfl⟩ := Piece.getElem?_entries.mp hentry
      obtain ⟨htoken, rfl⟩ := Prod.mk.inj h
      have hchain := l.apart
      rw [hpieces, List.isChain_split] at hchain
      rw [hpieces, List.getLast?_append_cons] at hlast
      refine ⟨front, p, back.flatMap Piece.text ++ (l.trail ++ rest), hfront, hchain.1, ?_,
        ends_of_isChain hchain.2 hlast, (Reply.token.inj htoken).symm, rfl⟩
      rw [hsource, Layout.text, hpieces, Piece.upTo]
      simp
    next => exact absurd h (hstream _ t read)
  · rintro ⟨front, p, rest, rfl, hchain, rfl, hends, rfl, rfl⟩
    have hlast : ∀ q ∈ (front ++ [p]).getLast?, Ends q.value rest := by simpa using hends
    have hscan := run_pieces hchain hlast []
    have hentry : (Piece.entries rest [] (front ++ [p]))[front.length]? = some _ :=
      Piece.getElem?_entries.mpr ⟨front, p, [], rfl, rfl, rfl⟩
    rw [List.flatMap_append, List.flatMap_singleton] at hscan
    have hreply := congrArg (Tokens.reply · front.length) hscan
    rw [Tokens.reply_after, hentry] at hreply
    exact hreply

end Scan

namespace Feed

open Scan

/-- The character at a position, counting from zero. -/
def char? (n : Nat) : Feed → Option Char
  | ending chars => chars[n]?
  | endless char => some (char n)

/-- A token and its place in a source: pieces that come before it, and a piece with its value, which ends there. The
    source is read up to the end of the value, and one character further if the value is a row of letters or a number
    and the source goes on. -/
structure Places (feed : Feed) (front : List Piece) (p : Piece) (t : Token) (read : Nat) : Prop where
  take_eq : feed.take (Piece.upTo front p).length = Piece.upTo front p
  apart : (front ++ [p]).IsChain Piece.Apart
  ends : Ends p.value (feed.char? (Piece.upTo front p).length).toList
  token_eq : t = ⟨p.lexeme, 1 + (front.flatMap Piece.text ++ p.gap).count '\n'⟩
  read_ahead : (IsLetterRow p.value ∨ IsNumber p.value) ∧ (feed.char? (Piece.upTo front p).length).isSome = true →
    read = (Piece.upTo front p).length + 1
  read_exact : ¬((IsLetterRow p.value ∨ IsNumber p.value) ∧ (feed.char? (Piece.upTo front p).length).isSome = true) →
    read = (Piece.upTo front p).length

variable {feed : Feed} {front : List Piece} {p : Piece} {t : Token} {read : Nat}

theorem Places.read_bounds (h : feed.Places front p t read) :
    (Piece.upTo front p).length ≤ read ∧ read ≤ (Piece.upTo front p).length + 1 := by
  by_cases hahead : (IsLetterRow p.value ∨ IsNumber p.value) ∧ (feed.char? (Piece.upTo front p).length).isSome = true
  · have := h.read_ahead hahead
    omega
  · have := h.read_exact hahead
    omega

/-- A place is told by the characters up to its end and the one after it. -/
theorem Places.congr {feed' : Feed} (h : feed.Places front p t read)
    (htake : feed'.take (Piece.upTo front p).length = feed.take (Piece.upTo front p).length)
    (hchar : feed'.char? (Piece.upTo front p).length = feed.char? (Piece.upTo front p).length) :
    feed'.Places front p t read where
  take_eq := htake.trans h.take_eq
  apart := h.apart
  ends := hchar ▸ h.ends
  token_eq := h.token_eq
  read_ahead := hchar ▸ h.read_ahead
  read_exact := hchar ▸ h.read_exact

theorem places_ending_iff {chars : List Char} :
    (ending chars).Places front p t read ↔
      ∃ rest, (front ++ [p]).IsChain Piece.Apart ∧ chars = Piece.upTo front p ++ rest ∧ Ends p.value rest ∧
        t = ⟨p.lexeme, 1 + (front.flatMap Piece.text ++ p.gap).count '\n'⟩ ∧
        read = (Piece.upTo front p).length + lookahead p.value rest := by
  have hchar : ∀ rest, char? (Piece.upTo front p).length (ending (Piece.upTo front p ++ rest)) = rest.head? := by
    intro rest
    rw [char?, List.getElem?_append_right (Nat.le_refl _), Nat.sub_self, List.head?_eq_getElem?]
  constructor
  · rintro ⟨htake, hapart, hends, rfl, hahead, hexact⟩
    obtain ⟨rest, rfl⟩ : ∃ rest, chars = Piece.upTo front p ++ rest :=
      ⟨chars.drop _, (List.take_append_drop _ chars).symm.trans (congrArg (· ++ _) htake)⟩
    rw [hchar] at hends hahead hexact
    exact ⟨rest, hapart, rfl, ends_head?_iff.mp hends, rfl, p.denotes.eq_add_lookahead_iff.mpr ⟨hahead, hexact⟩⟩
  · rintro ⟨rest, hapart, rfl, hends, rfl, hread⟩
    obtain ⟨hahead, hexact⟩ := p.denotes.eq_add_lookahead_iff.mp hread
    rw [← hchar rest] at hahead hexact
    exact ⟨List.take_left, hapart, hchar rest ▸ ends_head?_iff.mpr hends, rfl, hahead, hexact⟩

theorem getElem?_take {m n : Nat} (h : m < n) (feed : Feed) : (feed.take n)[m]? = feed.char? m := by
  cases feed with
  | ending chars => exact List.getElem?_take_of_lt h
  | endless char => simp [take, char?, h]

/-- The first characters of a source tell the place of a token, if one of them stands after it. -/
theorem places_take_iff {n : Nat} (h : (Piece.upTo front p).length < n) :
    (ending (feed.take n)).Places front p t read ↔ feed.Places front p t read := by
  have htake : (ending (feed.take n)).take (Piece.upTo front p).length = feed.take (Piece.upTo front p).length :=
    take_take (Nat.le_of_lt h) feed
  have hchar : (ending (feed.take n)).char? (Piece.upTo front p).length = feed.char? (Piece.upTo front p).length :=
    getElem?_take h feed
  exact ⟨fun hplaces => hplaces.congr htake.symm hchar.symm, fun hplaces => hplaces.congr htake hchar⟩

/-- The tokens pulled from a source are those that have a place in it, in the order of their places. -/
theorem gives_token_iff {k : Nat} :
    feed.Gives k (.token t, read) ↔ ∃ front p, front.length = k ∧ feed.Places front p t read := by
  have hending : ∀ {chars : List Char}, (Tokens.scan chars).reply k = (.token t, read) ↔
      ∃ front p, front.length = k ∧ (ending chars).Places front p t read := by
    intro chars
    simp only [reply_scan_eq_token, places_ending_iff, exists_and_left]
  cases feed with
  | ending chars => exact hending
  | endless char =>
    constructor
    · rintro ⟨n, hn⟩
      -- With more characters than are read the token is the same, and it does not end with them.
      have hpull : Scan.pull (take (max n (read + 1)) (endless char)) k = ((.token t, read), false) := by
        rw [← hn]
        exact pull_of_begins (by rw [hn]) (take_begins (Nat.le_max_left _ _) _)
      have hreply := fst_pull (take (max n (read + 1)) (endless char)) k
      rw [hpull] at hreply
      obtain ⟨front, p, hfront, hplaces⟩ := hending.mp hreply.symm
      have hle := hplaces.read_bounds.1
      exact ⟨front, p, hfront, (places_take_iff (by omega)).mp hplaces⟩
    · rintro ⟨front, p, hfront, hplaces⟩
      -- With two characters after the value the token is told before the end is asked for.
      obtain ⟨n, hn⟩ : ∃ n, n = (Piece.upTo front p).length + 2 := ⟨_, rfl⟩
      have hplaces' : (ending (take n (endless char))).Places front p t read := (places_take_iff (by omega)).mpr hplaces
      have hreply := hending.mpr ⟨front, p, hfront, hplaces'⟩
      rw [← fst_pull] at hreply
      refine ⟨n, Prod.ext hreply (Bool.eq_false_iff.mpr fun hasked => ?_)⟩
      have hread := read_pull hasked
      rw [hreply, take, List.length_map, List.length_range] at hread
      have hle : read ≤ _ := hplaces.read_bounds.2
      omega

end Feed

namespace Tokens

/-- Reading ahead. The tokens pulled from a source, whether it ends or not, are those that have a place in it, and each
    is told when the source has been read to the end of its value, and one character further after a row of letters or a
    number if there is one. If some pull is answered and the end of the source has not been asked for by then, every
    source that shares the characters that were read gives the same replies to the pulls up to this one, after the same
    numbers of characters. -/
theorem scan_lookahead :
    (∀ (feed : Feed) (k : Nat) (t : Token) (read : Nat),
      feed.Gives k (.token t, read) ↔ ∃ front p, front.length = k ∧ feed.Places front p t read) ∧
    ∀ (feed : Feed) (k : Nat) (reply : Reply) (n : Nat), feed.Tells k (reply, n) →
      ∀ other : Feed, other.take n = feed.take n → ∀ j ≤ k,
        ∃ answer, ∀ answer', (feed.Gives j answer' ↔ answer' = answer) ∧ (other.Gives j answer' ↔ answer' = answer) :=
  ⟨fun _ _ _ _ => Feed.gives_token_iff, fun _ _ _ _ h _ htake _ hj => h.exists_answer htake hj⟩

/-- A sum without end begins with the same two tokens as a source with a fault after them. -/
theorem scan_lookahead_cycle :
    let faulty : Feed := .ending "a + $".toList
    let cycle : Feed := .endless fun i => if i % 4 = 0 then 'a' else if i % 4 = 2 then '+' else ' '
    faulty.Tells 1 (.token ⟨.operator .add, 1⟩, 3) ∧ cycle.take 3 = faulty.take 3 ∧
      cycle.Gives 0 (.token ⟨.symbol "a", 1⟩, 2) ∧ cycle.Gives 1 (.token ⟨.operator .add, 1⟩, 3) := by
  intro faulty cycle
  have htells : faulty.Tells 1 (.token ⟨.operator .add, 1⟩, 3) := Feed.tells_ending_iff.mpr (by decide +kernel)
  have htake : cycle.take 3 = faulty.take 3 := by decide +kernel
  have hshared : ∀ j ≤ 1, ∀ answer, faulty.Gives j answer → cycle.Gives j answer := by
    intro j hj answer hgives
    obtain ⟨shared, hanswer⟩ := scan_lookahead.2 faulty 1 _ 3 htells cycle htake j hj
    exact (hanswer answer).2.mpr ((hanswer answer).1.mp hgives)
  refine ⟨htells, htake, hshared 0 (by decide) _ ?_, hshared 1 (by decide) _ ?_⟩
  all_goals
    change (scan "a + $".toList).reply _ = _
    decide +kernel

end Tokens

end StackCalc
