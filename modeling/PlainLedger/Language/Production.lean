import PlainLedger.Automaton.Table

/-!
# The grammar of the ledger language

A ledger is a list of declarations, each on lines of its own: dated entries, which go into the
ledger, and directives that only change how the rest is read. Lines that belong to the declaration
above them are indented. A piece of text that is no declaration is skipped as an error.
-/

namespace PlainLedger.Language

/-- The phrases of the language. -/
inductive Category where
  | file
  | declarations
  | directive
  | entry
  | emptyLine
  | eol
  | txn
  | numberExpr
  | txnFields
  | transaction
  | optFlag
  | posting
  | keyValue
  | keyValueValue
  | postingOrKvList
  | keyValueList
  | currencyList
  | pushTag
  | popTag
  | openEntry
  | optBooking
  | closeEntry
  | commodity
  | pad
  | balance
  | amount
  | amountTolerance
  | maybeNumber
  | compoundAmount
  | position
  | lotSpec
  | lotCompList
  | lotComp
  | price
  | event
  | note
  | filename
  | document
  | optionSetting
  | includeFile
  | plugin
  deriving DecidableEq, Repr

namespace Category

def all : List Category :=
  [file, declarations, directive, entry, emptyLine, eol, txn, numberExpr, txnFields, transaction,
    optFlag, posting, keyValue, keyValueValue, postingOrKvList, keyValueList, currencyList, pushTag,
    popTag, openEntry, optBooking, closeEntry, commodity, pad, balance, amount, amountTolerance,
    maybeNumber, compoundAmount, position, lotSpec, lotCompList, lotComp, price, event, note,
    filename, document, optionSetting, includeFile, plugin]

def index (c : Category) : Nat := c.ctorIdx

def name : Category → String
  | file => "file"
  | declarations => "declarations"
  | directive => "directive"
  | entry => "entry"
  | emptyLine => "empty_line"
  | eol => "eol"
  | txn => "txn"
  | numberExpr => "number_expr"
  | txnFields => "txn_fields"
  | transaction => "transaction"
  | optFlag => "optflag"
  | posting => "posting"
  | keyValue => "key_value"
  | keyValueValue => "key_value_value"
  | postingOrKvList => "posting_or_kv_list"
  | keyValueList => "key_value_list"
  | currencyList => "currency_list"
  | pushTag => "pushtag"
  | popTag => "poptag"
  | openEntry => "open"
  | optBooking => "opt_booking"
  | closeEntry => "close"
  | commodity => "commodity"
  | pad => "pad"
  | balance => "balance"
  | amount => "amount"
  | amountTolerance => "amount_tolerance"
  | maybeNumber => "maybe_number"
  | compoundAmount => "compound_amount"
  | position => "position"
  | lotSpec => "lot_spec"
  | lotCompList => "lot_comp_list"
  | lotComp => "lot_comp"
  | price => "price"
  | event => "event"
  | note => "note"
  | filename => "filename"
  | document => "document"
  | optionSetting => "option"
  | includeFile => "include"
  | plugin => "plugin"

end Category

/-- What completing a rule amounts to. Rules that differ only in which alternative was written
share one production. -/
inductive Production where
  | file
  | declarationsEmpty
  | declarationsDirective
  | declarationsEntry
  | declarationsError
  /-- The value of the only symbol. -/
  | forward
  /-- Lines without a value. -/
  | discard
  | txnKeyword
  | txnFlag
  | txnAsterisk
  | number
  | add
  | subtract
  | multiply
  | divide
  | negate
  | unaryPlus
  | parens
  | fieldsEmpty
  | fieldString
  | fieldLink
  | fieldTag
  | fieldPipe
  | transaction
  | optFlagNone
  | optFlagAsterisk
  | optFlagFlag
  | postingUnits
  | postingPerUnitPrice
  | postingTotalPrice
  | postingBare
  | keyValue
  | metaString
  | metaAccount
  | metaDate
  | metaCurrency
  | metaTag
  | metaBool
  | metaNumber
  | metaAmount
  | metaEmpty
  | linesEmpty
  | linesKeyValue
  | linesPosting
  | metaListEmpty
  | metaListAppend
  | currenciesEmpty
  | currenciesFirst
  | currenciesAppend
  | pushTag
  | popTag
  | openEntry
  | bookingSome
  | bookingNone
  | closeEntry
  | commodity
  | pad
  | balance
  | amount
  | amountExact
  | amountWithTolerance
  | maybeNumberNone
  | maybeNumberSome
  | compoundPerUnit
  | compoundWithTotal
  | position
  | positionWithLot
  | lotSpec
  | lotListEmpty
  | lotListFirst
  | lotListComma
  | lotListSlash
  | lotCost
  | lotDate
  | lotLabel
  | lotMerge
  | price
  | event
  | note
  | filename
  | document
  | optionSetting
  | includeFile
  | plugin
  | pluginWithConfig
  deriving DecidableEq, Repr

/-- A posting takes on the flag of the transaction it is written under. -/
def Production.isPosting : Production → Bool
  | .postingUnits | .postingPerUnitPrice | .postingTotalPrice | .postingBare => true
  | _ => false

/-- Signs bind tighter than products, and products tighter than sums. -/
def levels : List (Associativity × List Terminal) :=
  [(.left, [.plus, .minus]), (.left, [.asterisk, .slash]), (.unordered, [.negative])]

section Rules

private def t (x : Terminal) : Symbol := .terminal x

private def c (x : Category) : Symbol := .nonterminal x.index

private def rule (lhs : Category) (rhs : List Symbol) (action : Production)
    (rankedAs : Option Terminal := none) : Rule Production :=
  ⟨lhs.index, rhs, action, rankedAs⟩

def declarationRules : List (Rule Production) :=
  [rule .file [c .declarations] .file,
    rule .declarations [] .declarationsEmpty,
    rule .declarations [c .declarations, c .directive] .declarationsDirective,
    rule .declarations [c .declarations, c .entry] .declarationsEntry,
    rule .declarations [c .declarations, t .error] .declarationsError] ++
  ([.emptyLine, .pushTag, .popTag, .optionSetting, .includeFile, .plugin].map fun x ↦
    rule .directive [c x] .discard) ++
  ([.transaction, .balance, .openEntry, .closeEntry, .pad, .event, .note, .document, .price,
    .commodity].map fun x ↦ rule .entry [c x] .forward) ++
  [rule .emptyLine [t .eol] .discard,
    rule .emptyLine [t .comment, t .eol] .discard,
    rule .emptyLine [t .skipped] .discard,
    rule .eol [t .eol] .discard,
    rule .eol [t .comment, t .eol] .discard]

def numberRules : List (Rule Production) :=
  [rule .numberExpr [t .number] .number,
    rule .numberExpr [c .numberExpr, t .plus, c .numberExpr] .add,
    rule .numberExpr [c .numberExpr, t .minus, c .numberExpr] .subtract,
    rule .numberExpr [c .numberExpr, t .asterisk, c .numberExpr] .multiply,
    rule .numberExpr [c .numberExpr, t .slash, c .numberExpr] .divide,
    rule .numberExpr [t .minus, c .numberExpr] .negate (some .negative),
    rule .numberExpr [t .plus, c .numberExpr] .unaryPlus (some .negative),
    rule .numberExpr [t .leftParen, c .numberExpr, t .rightParen] .parens]

def transactionRules : List (Rule Production) :=
  [rule .txn [t .txn] .txnKeyword,
    rule .txn [t .flag] .txnFlag,
    rule .txn [t .asterisk] .txnAsterisk,
    rule .txnFields [] .fieldsEmpty,
    rule .txnFields [c .txnFields, t .string] .fieldString,
    rule .txnFields [c .txnFields, t .link] .fieldLink,
    rule .txnFields [c .txnFields, t .tag] .fieldTag,
    rule .txnFields [c .txnFields, t .pipe] .fieldPipe,
    rule .transaction [t .date, c .txn, c .txnFields, c .eol, c .postingOrKvList] .transaction,
    rule .optFlag [] .optFlagNone,
    rule .optFlag [t .asterisk] .optFlagAsterisk,
    rule .optFlag [t .flag] .optFlagFlag,
    rule .posting [t .indent, c .optFlag, t .account, c .position, c .eol] .postingUnits,
    rule .posting [t .indent, c .optFlag, t .account, c .position, t .atSign, c .amount, c .eol]
      .postingPerUnitPrice,
    rule .posting [t .indent, c .optFlag, t .account, c .position, t .doubleAt, c .amount, c .eol]
      .postingTotalPrice,
    rule .posting [t .indent, c .optFlag, t .account, c .eol] .postingBare]

def metadataRules : List (Rule Production) :=
  [rule .keyValue [t .indent, t .key, c .keyValueValue, c .eol] .keyValue,
    rule .keyValueValue [t .string] .metaString,
    rule .keyValueValue [t .account] .metaAccount,
    rule .keyValueValue [t .date] .metaDate,
    rule .keyValueValue [t .currency] .metaCurrency,
    rule .keyValueValue [t .tag] .metaTag,
    rule .keyValueValue [t .bool] .metaBool,
    rule .keyValueValue [c .numberExpr] .metaNumber,
    rule .keyValueValue [c .amount] .metaAmount,
    rule .keyValueValue [] .metaEmpty,
    rule .postingOrKvList [] .linesEmpty,
    rule .postingOrKvList [c .postingOrKvList, c .keyValue] .linesKeyValue,
    rule .postingOrKvList [c .postingOrKvList, c .posting] .linesPosting,
    rule .keyValueList [] .metaListEmpty,
    rule .keyValueList [c .keyValueList, c .keyValue] .metaListAppend]

def directiveRules : List (Rule Production) :=
  [rule .currencyList [] .currenciesEmpty,
    rule .currencyList [t .currency] .currenciesFirst,
    rule .currencyList [c .currencyList, t .comma, t .currency] .currenciesAppend,
    rule .pushTag [t .pushTag, t .tag, c .eol] .pushTag,
    rule .popTag [t .popTag, t .tag, c .eol] .popTag,
    rule .openEntry [t .date, t .openWord, t .account, c .currencyList, c .optBooking, c .eol,
      c .keyValueList] .openEntry,
    rule .optBooking [t .string] .bookingSome,
    rule .optBooking [] .bookingNone,
    rule .closeEntry [t .date, t .closeWord, t .account, c .eol, c .keyValueList] .closeEntry,
    rule .commodity [t .date, t .commodity, t .currency, c .eol, c .keyValueList] .commodity,
    rule .pad [t .date, t .pad, t .account, t .account, c .eol, c .keyValueList] .pad,
    rule .balance [t .date, t .balance, t .account, c .amountTolerance, c .eol, c .keyValueList]
      .balance]

def amountRules : List (Rule Production) :=
  [rule .amount [c .numberExpr, t .currency] .amount,
    rule .amountTolerance [c .numberExpr, t .currency] .amountExact,
    rule .amountTolerance [c .numberExpr, t .tilde, c .numberExpr, t .currency]
      .amountWithTolerance,
    rule .maybeNumber [] .maybeNumberNone,
    rule .maybeNumber [c .numberExpr] .maybeNumberSome,
    rule .compoundAmount [c .maybeNumber, t .currency] .compoundPerUnit,
    rule .compoundAmount [c .maybeNumber, t .hash, c .maybeNumber, t .currency] .compoundWithTotal,
    rule .position [c .amount] .position,
    rule .position [c .amount, c .lotSpec] .positionWithLot,
    rule .lotSpec [t .leftBrace, c .lotCompList, t .rightBrace] .lotSpec,
    rule .lotCompList [] .lotListEmpty,
    rule .lotCompList [c .lotComp] .lotListFirst,
    rule .lotCompList [c .lotCompList, t .comma, c .lotComp] .lotListComma,
    rule .lotCompList [c .lotCompList, t .slash, c .lotComp] .lotListSlash,
    rule .lotComp [c .compoundAmount] .lotCost,
    rule .lotComp [t .date] .lotDate,
    rule .lotComp [t .string] .lotLabel,
    rule .lotComp [t .asterisk] .lotMerge]

def datedRules : List (Rule Production) :=
  [rule .price [t .date, t .price, t .currency, c .amount, c .eol, c .keyValueList] .price,
    rule .event [t .date, t .event, t .string, t .string, c .eol, c .keyValueList] .event,
    rule .note [t .date, t .note, t .account, t .string, c .eol, c .keyValueList] .note,
    rule .filename [t .string] .filename,
    rule .document [t .date, t .document, t .account, c .filename, c .eol, c .keyValueList]
      .document]

def settingRules : List (Rule Production) :=
  [rule .optionSetting [t .optionWord, t .string, t .string, c .eol] .optionSetting,
    rule .includeFile [t .includeWord, t .string, c .eol] .includeFile,
    rule .plugin [t .plugin, t .string, c .eol] .plugin,
    rule .plugin [t .plugin, t .string, t .string, c .eol] .pluginWithConfig]

end Rules

def draft : Draft Production where
  names := Category.all.map Category.name
  levels := levels
  rules := declarationRules ++ numberRules ++ transactionRules ++ metadataRules ++
    directiveRules ++ amountRules ++ datedRules ++ settingRules

def grammar : Grammar Production where
  toDraft := draft
  start := Category.file.index
  start_lt := by decide
  rank?_error := by decide
  defined := by decide

/-- The tables of the language, computed once. -/
def tables : Tables := grammar.tables

end PlainLedger.Language
