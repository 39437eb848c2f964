import PlainLedger.Language.Production
import PlainLedger.Proofs.Automaton.Listed

/-!
# The automaton of the language

The states of the automaton and the lookaheads of their kernels, written out. The listing is checked
once against what the generator makes of the grammar, in steps that need one another's result but
not its computation. Whatever is read off the automaton afterwards is read off the listing, and
need not generate it again.
-/

namespace PlainLedger.Language

/-- What the nonterminals can begin with, and whether they can be empty. -/
def listedFlows : FlowTable :=
  List.map (fun f ↦ ⟨⟨f.1⟩, f.2⟩)
    [(3264175145074, true), (3264175145074, true), (1065151889520, false), (2199023255552, false),
    (112, false), (48, false), (50593792, false), (35184379428864, false),
    (228698418577536, true), (2199023255552, false), (17039360, true), (8, false), (8, false),
    (139637984067584, true), (8, true), (8, true), (8796093054976, true), (34359738368, false),
    (68719476736, false), (2199023255552, false), (17592186044416, true), (2199023255552, false),
    (2199023255552, false), (2199023255552, false), (2199023255552, false),
    (35184379428864, false), (35184379428864, false), (35184379428864, true),
    (43980472582144, false), (35184379428864, false), (4096, false), (63771682701312, true),
    (63771682144256, false), (2199023255552, false), (2199023255552, false),
    (2199023255552, false), (17592186044416, false), (2199023255552, false),
    (137438953472, false), (274877906944, false), (549755813888, false)]

/-- The sets of lookaheads that there are. -/
def listedSets : List Nat :=
  [1, 3264175145075, 228698418577584, 3264175145083, 8796105539632, 8796097019904, 48,
    17592186077232, 8796096954368, 4912, 12320768, 4398046511104, 8796096954416, 816, 565248,
    8796097085440, 8796093153280]

/-- The states, in the order of their numbers. Each has its kernel items, by rule, mark and set of
lookaheads, its edges, by symbol and target, and its default. -/
def listing : List (List (Nat × Nat × Nat) × List (Nat × Nat) × Option Nat) :=
  [([(104, 0, 0)], [(50, 1), (51, 2)], some 1), ([(104, 1, 0)], [], none), ([(0, 1, 0), (2, 1, 1),
    (3, 1, 1), (4, 1, 1)], [(1, 3), (4, 4), (5, 5), (6, 6), (35, 7), (36, 8), (37, 9), (38, 10),
    (39, 11), (41, 12), (52, 13), (53, 14), (54, 15), (59, 16), (67, 17), (68, 18), (69, 19),
    (71, 20), (72, 21), (73, 22), (74, 23), (83, 24), (84, 25), (85, 26), (87, 27), (88, 28),
    (89, 29), (90, 30)], none), ([(4, 2, 1)], [], some 4), ([(21, 1, 1)], [], some 21),
    ([(22, 1, 1)], [(4, 31)], none), ([(23, 1, 1)], [], some 23), ([(68, 1, 1)], [(46, 32)], none),
    ([(69, 1, 1)], [(46, 33)], none), ([(100, 1, 1)], [(44, 34)], none), ([(101, 1, 1)], [(44, 35)],
    none), ([(102, 1, 1), (103, 1, 1)], [(44, 36)], none), ([(42, 1, 1), (70, 1, 1), (73, 1, 1),
    (74, 1, 1), (75, 1, 1), (76, 1, 1), (95, 1, 1), (96, 1, 1), (97, 1, 1), (99, 1, 1)], [(18, 37),
    (24, 38), (25, 39), (26, 40), (27, 41), (28, 42), (29, 43), (30, 44), (31, 45), (32, 46),
    (33, 47), (34, 48), (56, 49)], none), ([(2, 2, 1)], [], some 2), ([(3, 2, 1)], [], some 3),
    ([(5, 1, 1)], [], some 5), ([(11, 1, 1)], [], some 11), ([(6, 1, 1)], [], some 6), ([(7, 1, 1)],
    [], some 7), ([(13, 1, 1)], [], some 13), ([(14, 1, 1)], [], some 14), ([(20, 1, 1)], [],
    some 20), ([(15, 1, 1)], [], some 15), ([(12, 1, 1)], [], some 12), ([(19, 1, 1)], [], some 19),
    ([(16, 1, 1)], [], some 16), ([(17, 1, 1)], [], some 17), ([(18, 1, 1)], [], some 18),
    ([(8, 1, 1)], [], some 8), ([(9, 1, 1)], [], some 9), ([(10, 1, 1)], [], some 10),
    ([(22, 2, 1)], [], some 22), ([(68, 2, 1)], [(4, 50), (5, 51), (55, 52)], none), ([(69, 2, 1)],
    [(4, 50), (5, 51), (55, 53)], none), ([(100, 2, 1)], [(44, 54)], none), ([(101, 2, 1)],
    [(4, 50), (5, 51), (55, 55)], none), ([(102, 2, 1), (103, 2, 1)], [(4, 50), (5, 51), (44, 56),
    (55, 57)], none), ([(36, 1, 2)], [], some 36), ([(35, 1, 2)], [], some 35), ([(34, 1, 2)], [],
    some 34), ([(76, 2, 1)], [(42, 58)], none), ([(70, 2, 1)], [(42, 59)], none), ([(73, 2, 1)],
    [(42, 60)], none), ([(74, 2, 1)], [(43, 61)], none), ([(75, 2, 1)], [(42, 62)], none),
    ([(96, 2, 1)], [(44, 63)], none), ([(95, 2, 1)], [(43, 64)], none), ([(97, 2, 1)], [(42, 65)],
    none), ([(99, 2, 1)], [(42, 66)], none), ([(42, 2, 1)], [(58, 67)], some 37), ([(24, 1, 3)], [],
    some 24), ([(25, 1, 3)], [(4, 68)], none), ([(68, 3, 1)], [], some 68), ([(69, 3, 1)], [],
    some 69), ([(100, 3, 1)], [(4, 50), (5, 51), (55, 69)], none), ([(101, 3, 1)], [], some 101),
    ([(103, 3, 1)], [(4, 50), (5, 51), (55, 70)], none), ([(102, 3, 1)], [], some 102),
    ([(76, 3, 1)], [(20, 71), (21, 72), (22, 73), (45, 74), (57, 75), (76, 76)], none),
    ([(70, 3, 1)], [(43, 77), (66, 78)], some 65), ([(73, 3, 1)], [(4, 50), (5, 51), (55, 79)],
    none), ([(74, 3, 1)], [(4, 50), (5, 51), (55, 80)], none), ([(75, 3, 1)], [(42, 81)], none),
    ([(96, 3, 1)], [(44, 82)], none), ([(95, 3, 1)], [(20, 71), (21, 72), (22, 73), (45, 74),
    (57, 83), (75, 84)], none), ([(97, 3, 1)], [(44, 85)], none), ([(99, 3, 1)], [(44, 86),
    (86, 87)], none), ([(38, 1, 2), (39, 1, 2), (40, 1, 2), (41, 1, 2), (42, 3, 1)], [(4, 50),
    (5, 51), (7, 88), (44, 89), (46, 90), (47, 91), (55, 92)], none), ([(25, 2, 3)], [], some 25),
    ([(100, 4, 1)], [], some 100), ([(103, 4, 1)], [], some 103), ([(32, 1, 4)], [(20, 71),
    (21, 72), (22, 73), (45, 74), (57, 93)], none), ([(31, 1, 4)], [(20, 71), (21, 72), (22, 73),
    (45, 74), (57, 94)], none), ([(33, 1, 4)], [(20, 71), (21, 72), (22, 73), (45, 74), (57, 95)],
    none), ([(26, 1, 4)], [], some 26), ([(27, 1, 5), (28, 1, 5), (29, 1, 5), (30, 1, 5),
    (78, 1, 6), (79, 1, 6)], [(16, 96), (18, 97), (19, 98), (20, 99), (21, 100), (43, 101)], none),
    ([(76, 4, 1)], [(4, 50), (5, 51), (55, 102)], none), ([(66, 1, 7)], [], some 66), ([(67, 1, 7),
    (70, 4, 1)], [(15, 103), (44, 104), (70, 105)], some 72), ([(73, 4, 1)], [(65, 106)], some 63),
    ([(74, 4, 1)], [(65, 107)], some 63), ([(75, 4, 1)], [(4, 50), (5, 51), (55, 108)], none),
    ([(96, 4, 1)], [(4, 50), (5, 51), (55, 109)], none), ([(27, 1, 8), (28, 1, 8), (29, 1, 8),
    (30, 1, 8), (77, 1, 9)], [(18, 97), (19, 98), (20, 99), (21, 100), (43, 110)], none),
    ([(95, 4, 1)], [(4, 50), (5, 51), (55, 111)], none), ([(97, 4, 1)], [(4, 50), (5, 51),
    (55, 112)], none), ([(98, 1, 6)], [], some 98), ([(99, 4, 1)], [(4, 50), (5, 51), (55, 113)],
    none), ([(41, 2, 2)], [], some 41), ([(38, 2, 2)], [], some 38), ([(40, 2, 2)], [], some 40),
    ([(39, 2, 2)], [], some 39), ([(42, 4, 1)], [(64, 114)], some 60), ([(27, 1, 4), (28, 1, 4),
    (29, 1, 4), (30, 1, 4), (32, 2, 4)], [(18, 97), (19, 98), (20, 99), (21, 100)], some 32),
    ([(27, 1, 4), (28, 1, 4), (29, 1, 4), (30, 1, 4), (31, 2, 4)], [(18, 97), (19, 98), (20, 99),
    (21, 100)], some 31), ([(27, 1, 10), (28, 1, 10), (29, 1, 10), (30, 1, 10), (33, 2, 4)],
    [(18, 97), (19, 98), (20, 99), (21, 100), (23, 115)], none), ([(79, 2, 6)], [(20, 71), (21, 72),
    (22, 73), (45, 74), (57, 116)], none), ([(29, 2, 4)], [(20, 71), (21, 72), (22, 73), (45, 74),
    (57, 117)], none), ([(30, 2, 4)], [(20, 71), (21, 72), (22, 73), (45, 74), (57, 118)], none),
    ([(27, 2, 4)], [(20, 71), (21, 72), (22, 73), (45, 74), (57, 119)], none), ([(28, 2, 4)],
    [(20, 71), (21, 72), (22, 73), (45, 74), (57, 120)], none), ([(78, 2, 6)], [], some 78),
    ([(76, 5, 1)], [(65, 121)], some 63), ([(67, 2, 7)], [(43, 122)], none), ([(71, 1, 6)], [],
    some 71), ([(70, 5, 1)], [(4, 50), (5, 51), (55, 123)], none), ([(64, 1, 3), (73, 5, 1)],
    [(3, 124), (62, 125)], some 73), ([(64, 1, 3), (74, 5, 1)], [(3, 124), (62, 125)], some 74),
    ([(75, 5, 1)], [(65, 126)], some 63), ([(96, 5, 1)], [(65, 127)], some 63), ([(77, 2, 9)], [],
    some 77), ([(95, 5, 1)], [(65, 128)], some 63), ([(97, 5, 1)], [(65, 129)], some 63),
    ([(99, 5, 1)], [(65, 130)], some 63), ([(42, 5, 1), (61, 1, 3), (62, 1, 3)], [(3, 131),
    (61, 132), (62, 133)], some 42), ([(33, 3, 4)], [], some 33), ([(27, 1, 8), (28, 1, 8),
    (29, 1, 8), (30, 1, 8), (79, 3, 6)], [(18, 97), (19, 98), (20, 99), (21, 100), (43, 134)],
    none), ([(27, 1, 4), (28, 1, 4), (29, 1, 4), (29, 3, 4), (30, 1, 4)], [(18, 97), (19, 98),
    (20, 99), (21, 100)], some 29), ([(27, 1, 4), (28, 1, 4), (29, 1, 4), (30, 1, 4), (30, 3, 4)],
    [(18, 97), (19, 98), (20, 99), (21, 100)], some 30), ([(27, 1, 4), (27, 3, 4), (28, 1, 4),
    (29, 1, 4), (30, 1, 4)], [(18, 97), (19, 98), (20, 99), (21, 100)], some 27), ([(27, 1, 4),
    (28, 1, 4), (28, 3, 4), (29, 1, 4), (30, 1, 4)], [(18, 97), (19, 98), (20, 99), (21, 100)],
    some 28), ([(64, 1, 3), (76, 6, 1)], [(3, 124), (62, 125)], some 76), ([(67, 3, 7)], [],
    some 67), ([(70, 6, 1)], [(65, 135)], some 63), ([(50, 1, 3)], [(48, 136)], none),
    ([(64, 2, 3)], [], some 64), ([(64, 1, 3), (75, 6, 1)], [(3, 124), (62, 125)], some 75),
    ([(64, 1, 3), (96, 6, 1)], [(3, 124), (62, 125)], some 96), ([(64, 1, 3), (95, 6, 1)],
    [(3, 124), (62, 125)], some 95), ([(64, 1, 3), (97, 6, 1)], [(3, 124), (62, 125)], some 97),
    ([(64, 1, 3), (99, 6, 1)], [(3, 124), (62, 125)], some 99), ([(46, 1, 3), (47, 1, 3),
    (48, 1, 3), (49, 1, 3), (50, 1, 3)], [(18, 137), (24, 138), (48, 136), (60, 139)], some 43),
    ([(62, 2, 3)], [], some 62), ([(61, 2, 3)], [], some 61), ([(79, 4, 6)], [], some 79),
    ([(64, 1, 3), (70, 7, 1)], [(3, 124), (62, 125)], some 70), ([(50, 2, 3)], [(20, 71), (21, 72),
    (22, 73), (40, 140), (41, 141), (42, 142), (43, 143), (44, 144), (45, 74), (46, 145), (57, 146),
    (63, 147), (75, 148)], some 59), ([(44, 1, 11)], [], some 44), ([(45, 1, 11)], [], some 45),
    ([(46, 2, 3), (47, 2, 3), (48, 2, 3), (49, 2, 3)], [(42, 149)], none), ([(56, 1, 6)], [],
    some 56), ([(53, 1, 6)], [], some 53), ([(52, 1, 6)], [], some 52), ([(54, 1, 6)], [], some 54),
    ([(51, 1, 6)], [], some 51), ([(55, 1, 6)], [], some 55), ([(27, 1, 12), (28, 1, 12),
    (29, 1, 12), (30, 1, 12), (57, 1, 6), (77, 1, 6)], [(18, 97), (19, 98), (20, 99), (21, 100),
    (43, 110)], some 57), ([(50, 3, 3)], [(4, 50), (5, 51), (55, 150)], none), ([(58, 1, 6)], [],
    some 58), ([(46, 3, 3), (47, 3, 3), (48, 3, 3), (49, 3, 3)], [(4, 50), (5, 51), (20, 71),
    (21, 72), (22, 73), (45, 74), (55, 151), (57, 83), (75, 152), (79, 153)], none), ([(50, 4, 3)],
    [], some 50), ([(49, 4, 3)], [], some 49), ([(84, 1, 13), (85, 1, 13)], [(12, 154), (80, 155)],
    some 84), ([(46, 4, 3), (47, 4, 3), (48, 4, 3)], [(4, 50), (5, 51), (8, 156), (9, 157),
    (55, 158)], none), ([(86, 1, 13)], [(18, 159), (20, 71), (21, 72), (22, 73), (41, 160),
    (44, 161), (45, 74), (57, 162), (77, 163), (78, 164), (81, 165), (82, 166)], some 87),
    ([(85, 2, 13)], [], some 85), ([(48, 5, 3)], [(20, 71), (21, 72), (22, 73), (45, 74), (57, 83),
    (75, 167)], none), ([(47, 5, 3)], [(20, 71), (21, 72), (22, 73), (45, 74), (57, 83), (75, 168)],
    none), ([(46, 5, 3)], [], some 46), ([(94, 1, 14)], [], some 94), ([(92, 1, 14)], [], some 92),
    ([(93, 1, 14)], [], some 93), ([(27, 1, 15), (28, 1, 15), (29, 1, 15), (30, 1, 15),
    (81, 1, 16)], [(18, 97), (19, 98), (20, 99), (21, 100)], some 81), ([(82, 1, 14), (83, 1, 14)],
    [(17, 169), (43, 170)], none), ([(91, 1, 14)], [], some 91), ([(86, 2, 13), (89, 1, 14),
    (90, 1, 14)], [(13, 171), (15, 172), (19, 173)], none), ([(88, 1, 14)], [], some 88),
    ([(48, 6, 3)], [(4, 50), (5, 51), (55, 174)], none), ([(47, 6, 3)], [(4, 50), (5, 51),
    (55, 175)], none), ([(83, 2, 14)], [(20, 71), (21, 72), (22, 73), (45, 74), (57, 162),
    (77, 176)], some 80), ([(82, 2, 14)], [], some 82), ([(86, 3, 13)], [], some 86),
    ([(89, 2, 14)], [(18, 159), (20, 71), (21, 72), (22, 73), (41, 160), (44, 161), (45, 74),
    (57, 162), (77, 163), (78, 164), (82, 177)], some 80), ([(90, 2, 14)], [(18, 159), (20, 71),
    (21, 72), (22, 73), (41, 160), (44, 161), (45, 74), (57, 162), (77, 163), (78, 164), (82, 178)],
    some 80), ([(48, 7, 3)], [], some 48), ([(47, 7, 3)], [], some 47), ([(83, 3, 14)], [(43, 179)],
    none), ([(89, 3, 14)], [], some 89), ([(90, 3, 14)], [], some 90), ([(83, 4, 14)], [], some 83)]

/-- The symbol at a place in symbol order. -/
def symbolAt (n : Nat) : Symbol :=
  match Terminal.all[n]? with
  | some t => .terminal t
  | none => .nonterminal (n - Terminal.count)

def listedStates : List State :=
  listing.map fun s ↦ ⟨s.1.map fun i ↦ ⟨i.1, i.2.1⟩, s.2.1.map fun e ↦ (symbolAt e.1, e.2)⟩

def listedLookaheads : Lookaheads :=
  listing.map fun s ↦ s.1.map fun i ↦ ⟨listedSets.getD i.2.2 0⟩

/-- The actions of the states that do not read a token wherever they have an edge for it, or do
something else than reading. -/
def listedActions : List (Nat × List (Terminal × Action)) :=
  [(1, [(.endOfInput, .accept)]),
    (2, [(.endOfInput, .reduce 0), (.error, .shift 3), (.eol, .shift 4), (.comment, .shift 5),
      (.skipped, .shift 6), (.pushTag, .shift 7), (.popTag, .shift 8), (.optionWord, .shift 9),
      (.includeWord, .shift 10), (.plugin, .shift 11), (.date, .shift 12)]),
    (93, []), (94, []), (117, []), (118, []),
    (119, [(.asterisk, .shift 97), (.slash, .shift 98)]),
    (120, [(.asterisk, .shift 97), (.slash, .shift 98)]),
    (154, [(.hash, .reduce 80), (.asterisk, .shift 159), (.plus, .shift 71), (.minus, .shift 72),
      (.leftParen, .shift 73), (.date, .shift 160), (.currency, .reduce 80), (.string, .shift 161),
      (.number, .shift 74)])]

def listedTables : Tables where
  rows := listing.zipIdx.map fun s ↦
    let edges := s.1.2.1.map fun e ↦ (symbolAt e.1, e.2)
    { actions := (listedActions.lookup s.2).getD
        (edges.filterMap fun e ↦ e.1.terminal?.map fun t ↦ (t, .shift e.2))
      default? := s.1.2.2
      gotos := edges.filterMap fun e ↦ e.1.nonterminal?.map fun n ↦ (n, e.2) }
  conflicts := []

theorem flows_eq : grammar.flows = listedFlows := by decide +kernel

/-- For each state, states that its lookaheads can be traced back to. -/
def listedSources : List (List Nat) :=
  [[], [0], [0], [2], [2], [2], [2], [2], [2], [2], [2], [2], [2], [2], [2], [2], [2], [2], [2],
    [2], [2], [2], [2], [2], [2], [2], [2], [2], [2], [2], [2], [5], [7], [8], [9], [10], [11],
    [12], [12], [12], [12], [12], [12], [12], [12], [12], [12], [12], [12], [12], [32, 60],
    [32, 60], [32], [33], [34], [35], [36], [36], [40], [41], [42], [43], [44], [45], [46], [47],
    [48], [49], [51], [54], [56], [58, 73, 136, 154], [71], [71], [71], [58], [58], [59], [59],
    [60], [61], [62], [63], [149], [64], [65], [66], [66], [67], [67], [67], [67], [67], [71], [72],
    [73], [75], [93], [93], [93], [93], [75], [76], [78], [78], [78], [79], [80], [81], [82], [83],
    [84], [85], [87], [92], [95], [96], [97], [98], [99], [100], [102], [103], [105], [106], [106],
    [108], [109], [111], [112], [113], [114], [114], [114], [116], [123], [124], [131], [131],
    [131], [136], [136], [136], [136], [136], [136], [136], [136], [136], [139], [147], [149],
    [149], [149], [152], [152], [153], [153], [153], [154], [154], [154], [154], [154], [154],
    [154], [154], [156], [157], [163], [163], [165], [165], [165], [167], [168], [169], [172],
    [173], [176]]

/-- Tells the kernels apart. -/
def kernelKey (kernel : List Item) : Nat :=
  kernel.foldl (fun key i ↦ 2048 * key + 8 * i.rule + i.dot + 1) 0

theorem states_eq : grammar.states = listedStates := by
  have hnodup : ((listedStates.map State.kernel).map kernelKey).Nodup := by decide +kernel
  exact Grammar.states_eq_of_inOrder rfl (.of_map kernelKey hnodup) (by decide +kernel)
    (by decide +kernel) (by decide +kernel)

theorem lookaheads_eq : grammar.lookaheads = listedLookaheads := by
  have hclosed : ∀ w ∈ grammar.ways listedFlows listedStates,
      (w.2.2.flow.apply (listedLookaheads.get w.2.2.state w.2.2.place)).union
          (listedLookaheads.get w.1 w.2.1) = listedLookaheads.get w.1 w.2.1 := by
    decide +kernel
  have htraced : ∀ r ∈ (listedLookaheads.zip listedSources).zipIdx, ∀ c ∈ r.1.1.zipIdx,
      c.1.union (listedLookaheads.traced
          (grammar.waysFrom listedFlows listedStates r.1.2) r.2 c.2) =
        listedLookaheads.traced (grammar.waysFrom listedFlows listedStates r.1.2) r.2 c.2 := by
    decide +kernel
  have hfits : listedLookaheads.map List.length = listedStates.map fun s ↦ s.kernel.length := by
    decide +kernel
  have hproper : ∀ row ∈ listedLookaheads, ∀ s ∈ row, s.bits < 2 ^ Terminal.count := by
    decide +kernel
  rw [← flows_eq, ← states_eq] at hclosed htraced
  rw [← states_eq] at hfits
  exact Grammar.lookaheads_eq_of_traced hfits hproper
    (by decide +kernel) (fun w hw ↦ TerminalSet.within_of_union_eq (hclosed w hw)) rfl
    fun r hr c hc ↦ TerminalSet.within_of_union_eq (htraced r hr c hc)

theorem fullRows_eq :
    ((grammar.fullRows listedFlows listedStates listedLookaheads).zip listedStates).map
        (fun r ↦ Row.ofEntries r.1.1 r.2.edges) = listedTables.rows ∧
      (grammar.fullRows listedFlows listedStates listedLookaheads).flatMap Prod.snd = [] := by
  decide +kernel

theorem tables_eq : tables = listedTables := by
  have hrows : grammar.fullRows grammar.flows grammar.states
      (grammar.solveLookaheads grammar.flows grammar.states) =
        grammar.fullRows listedFlows listedStates listedLookaheads := by
    rw [show grammar.solveLookaheads grammar.flows grammar.states = grammar.lookaheads from rfl,
      flows_eq, states_eq, lookaheads_eq]
  unfold tables Grammar.tables
  dsimp only
  rw [hrows, states_eq, fullRows_eq.2]
  exact congrArg (Tables.mk · []) fullRows_eq.1

end PlainLedger.Language
