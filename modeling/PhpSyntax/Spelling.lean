import PhpSyntax.Kind
import PhpSyntax.Text.Width

/-!
How kinds are written: the label of a kind in dumps, the fixed spelling of punctuation, operators,
tags and keywords, the words a diagnostic uses, and the keyword that a word spells.
-/
namespace PhpSyntax.Kind

/-- The name of a kind in a dump. -/
def label : Kind → String
  | .leftParen => "LEFT_PAREN"
  | .rightParen => "RIGHT_PAREN"
  | .leftBracket => "LEFT_BRACKET"
  | .rightBracket => "RIGHT_BRACKET"
  | .leftBrace => "LEFT_BRACE"
  | .rightBrace => "RIGHT_BRACE"
  | .semicolon => "SEMICOLON"
  | .comma => "COMMA"
  | .colon => "COLON"
  | .colonColon => "COLON_COLON"
  | .arrow => "ARROW"
  | .questionArrow => "QUESTION_ARROW"
  | .fatArrow => "FAT_ARROW"
  | .question => "QUESTION"
  | .questionQuestion => "QUESTION_QUESTION"
  | .backslash => "BACKSLASH"
  | .dollar => "DOLLAR"
  | .ellipsis => "ELLIPSIS"
  | .atSign => "AT"
  | .eq => "EQ"
  | .plusEq => "PLUS_EQ"
  | .minusEq => "MINUS_EQ"
  | .starEq => "STAR_EQ"
  | .slashEq => "SLASH_EQ"
  | .dotEq => "DOT_EQ"
  | .percentEq => "PERCENT_EQ"
  | .starStarEq => "STAR_STAR_EQ"
  | .ampEq => "AMP_EQ"
  | .pipeEq => "PIPE_EQ"
  | .caretEq => "CARET_EQ"
  | .shlEq => "SHL_EQ"
  | .shrEq => "SHR_EQ"
  | .questionQuestionEq => "QUESTION_QUESTION_EQ"
  | .eqEq => "EQ_EQ"
  | .eqEqEq => "EQ_EQ_EQ"
  | .bangEq => "BANG_EQ"
  | .bangEqEq => "BANG_EQ_EQ"
  | .lt => "LT"
  | .ltEq => "LT_EQ"
  | .gt => "GT"
  | .gtEq => "GT_EQ"
  | .spaceship => "SPACESHIP"
  | .plus => "PLUS"
  | .minus => "MINUS"
  | .star => "STAR"
  | .slash => "SLASH"
  | .percent => "PERCENT"
  | .starStar => "STAR_STAR"
  | .dot => "DOT"
  | .plusPlus => "PLUS_PLUS"
  | .minusMinus => "MINUS_MINUS"
  | .amp => "AMP"
  | .pipe => "PIPE"
  | .caret => "CARET"
  | .tilde => "TILDE"
  | .shl => "SHL"
  | .shr => "SHR"
  | .ampAmp => "AMP_AMP"
  | .pipePipe => "PIPE_PIPE"
  | .bang => "BANG"
  | .openTag => "OPEN_TAG"
  | .openTagWithEcho => "OPEN_TAG_WITH_ECHO"
  | .closeTag => "CLOSE_TAG"
  | .inlineHtml => "INLINE_HTML"
  | .variableName => "VARIABLE"
  | .name => "NAME"
  | .intNumber => "INT_NUMBER"
  | .floatNumber => "FLOAT_NUMBER"
  | .string => "STRING"
  | .cast => "CAST"
  | .abstractKw => "ABSTRACT_KW"
  | .andKw => "AND_KW"
  | .arrayKw => "ARRAY_KW"
  | .asKw => "AS_KW"
  | .breakKw => "BREAK_KW"
  | .caseKw => "CASE_KW"
  | .catchKw => "CATCH_KW"
  | .classKw => "CLASS_KW"
  | .cloneKw => "CLONE_KW"
  | .constKw => "CONST_KW"
  | .continueKw => "CONTINUE_KW"
  | .declareKw => "DECLARE_KW"
  | .defaultKw => "DEFAULT_KW"
  | .doKw => "DO_KW"
  | .echoKw => "ECHO_KW"
  | .elseKw => "ELSE_KW"
  | .elseifKw => "ELSEIF_KW"
  | .emptyKw => "EMPTY_KW"
  | .endforKw => "ENDFOR_KW"
  | .endforeachKw => "ENDFOREACH_KW"
  | .endifKw => "ENDIF_KW"
  | .endwhileKw => "ENDWHILE_KW"
  | .extendsKw => "EXTENDS_KW"
  | .finalKw => "FINAL_KW"
  | .finallyKw => "FINALLY_KW"
  | .fnKw => "FN_KW"
  | .forKw => "FOR_KW"
  | .foreachKw => "FOREACH_KW"
  | .functionKw => "FUNCTION_KW"
  | .globalKw => "GLOBAL_KW"
  | .ifKw => "IF_KW"
  | .implementsKw => "IMPLEMENTS_KW"
  | .includeKw => "INCLUDE_KW"
  | .includeOnceKw => "INCLUDE_ONCE_KW"
  | .instanceofKw => "INSTANCEOF_KW"
  | .interfaceKw => "INTERFACE_KW"
  | .issetKw => "ISSET_KW"
  | .listKw => "LIST_KW"
  | .matchKw => "MATCH_KW"
  | .namespaceKw => "NAMESPACE_KW"
  | .newKw => "NEW_KW"
  | .orKw => "OR_KW"
  | .printKw => "PRINT_KW"
  | .privateKw => "PRIVATE_KW"
  | .protectedKw => "PROTECTED_KW"
  | .publicKw => "PUBLIC_KW"
  | .readonlyKw => "READONLY_KW"
  | .requireKw => "REQUIRE_KW"
  | .requireOnceKw => "REQUIRE_ONCE_KW"
  | .returnKw => "RETURN_KW"
  | .staticKw => "STATIC_KW"
  | .switchKw => "SWITCH_KW"
  | .throwKw => "THROW_KW"
  | .traitKw => "TRAIT_KW"
  | .tryKw => "TRY_KW"
  | .unsetKw => "UNSET_KW"
  | .useKw => "USE_KW"
  | .varKw => "VAR_KW"
  | .whileKw => "WHILE_KW"
  | .xorKw => "XOR_KW"
  | .yieldKw => "YIELD_KW"
  | .whitespace => "WHITESPACE"
  | .newline => "NEWLINE"
  | .lineComment => "LINE_COMMENT"
  | .blockComment => "BLOCK_COMMENT"
  | .docComment => "DOC_COMMENT"
  | .skipped => "SKIPPED"
  | .missing => "MISSING"
  | .eof => "EOF"
  | .tombstone => "TOMBSTONE"
  | .sourceFile => "SOURCE_FILE"
  | .error => "ERROR"
  | .inlineHtmlStmt => "INLINE_HTML_STMT"
  | .compoundStmt => "COMPOUND_STMT"
  | .stmtList => "STMT_LIST"
  | .emptyStmt => "EMPTY_STMT"
  | .exprStmt => "EXPR_STMT"
  | .echoStmt => "ECHO_STMT"
  | .ifStmt => "IF_STMT"
  | .elseIfClause => "ELSE_IF_CLAUSE"
  | .elseClause => "ELSE_CLAUSE"
  | .whileStmt => "WHILE_STMT"
  | .doStmt => "DO_STMT"
  | .forStmt => "FOR_STMT"
  | .foreachStmt => "FOREACH_STMT"
  | .foreachKey => "FOREACH_KEY"
  | .switchStmt => "SWITCH_STMT"
  | .switchBlock => "SWITCH_BLOCK"
  | .caseClause => "CASE_CLAUSE"
  | .defaultClause => "DEFAULT_CLAUSE"
  | .breakStmt => "BREAK_STMT"
  | .continueStmt => "CONTINUE_STMT"
  | .returnStmt => "RETURN_STMT"
  | .throwStmt => "THROW_STMT"
  | .tryStmt => "TRY_STMT"
  | .catchClause => "CATCH_CLAUSE"
  | .finallyClause => "FINALLY_CLAUSE"
  | .globalStmt => "GLOBAL_STMT"
  | .staticVarStmt => "STATIC_VAR_STMT"
  | .staticVar => "STATIC_VAR"
  | .unsetStmt => "UNSET_STMT"
  | .declareStmt => "DECLARE_STMT"
  | .declareDirective => "DECLARE_DIRECTIVE"
  | .functionDecl => "FUNCTION_DECL"
  | .paramList => "PARAM_LIST"
  | .param => "PARAM"
  | .returnType => "RETURN_TYPE"
  | .classDecl => "CLASS_DECL"
  | .interfaceDecl => "INTERFACE_DECL"
  | .traitDecl => "TRAIT_DECL"
  | .modifierList => "MODIFIER_LIST"
  | .extendsClause => "EXTENDS_CLAUSE"
  | .implementsClause => "IMPLEMENTS_CLAUSE"
  | .nameList => "NAME_LIST"
  | .memberList => "MEMBER_LIST"
  | .propertyDecl => "PROPERTY_DECL"
  | .propertyElement => "PROPERTY_ELEMENT"
  | .methodDecl => "METHOD_DECL"
  | .classConstDecl => "CLASS_CONST_DECL"
  | .constElement => "CONST_ELEMENT"
  | .traitUse => "TRAIT_USE"
  | .namespaceDef => "NAMESPACE_DEF"
  | .namespaceUse => "NAMESPACE_USE"
  | .useClause => "USE_CLAUSE"
  | .useAlias => "USE_ALIAS"
  | .constDecl => "CONST_DECL"
  | .namedType => "NAMED_TYPE"
  | .nullableType => "NULLABLE_TYPE"
  | .unionType => "UNION_TYPE"
  | .qualifiedName => "QUALIFIED_NAME"
  | .exprList => "EXPR_LIST"
  | .literal => "LITERAL"
  | .variableExpr => "VARIABLE_EXPR"
  | .nameExpr => "NAME_EXPR"
  | .parenExpr => "PAREN_EXPR"
  | .arrayExpr => "ARRAY_EXPR"
  | .arrayElement => "ARRAY_ELEMENT"
  | .listExpr => "LIST_EXPR"
  | .issetExpr => "ISSET_EXPR"
  | .emptyExpr => "EMPTY_EXPR"
  | .binaryExpr => "BINARY_EXPR"
  | .assignExpr => "ASSIGN_EXPR"
  | .ternaryExpr => "TERNARY_EXPR"
  | .prefixExpr => "PREFIX_EXPR"
  | .postfixExpr => "POSTFIX_EXPR"
  | .castExpr => "CAST_EXPR"
  | .newExpr => "NEW_EXPR"
  | .cloneExpr => "CLONE_EXPR"
  | .printExpr => "PRINT_EXPR"
  | .includeExpr => "INCLUDE_EXPR"
  | .yieldExpr => "YIELD_EXPR"
  | .callExpr => "CALL_EXPR"
  | .argList => "ARG_LIST"
  | .arg => "ARG"
  | .memberAccessExpr => "MEMBER_ACCESS_EXPR"
  | .scopedAccessExpr => "SCOPED_ACCESS_EXPR"
  | .subscriptExpr => "SUBSCRIPT_EXPR"
  | .closureExpr => "CLOSURE_EXPR"
  | .closureUse => "CLOSURE_USE"
  | .arrowFnExpr => "ARROW_FN_EXPR"
  | .matchExpr => "MATCH_EXPR"
  | .matchArm => "MATCH_ARM"

/-- The one spelling of punctuation, operators, tags and keywords. -/
def spelling? : Kind → Option String
  | .leftParen => some "("
  | .rightParen => some ")"
  | .leftBracket => some "["
  | .rightBracket => some "]"
  | .leftBrace => some "\x7b"
  | .rightBrace => some "\x7d"
  | .semicolon => some ";"
  | .comma => some ","
  | .colon => some ":"
  | .colonColon => some "::"
  | .arrow => some "->"
  | .questionArrow => some "?->"
  | .fatArrow => some "=>"
  | .question => some "?"
  | .questionQuestion => some "??"
  | .backslash => some "\\"
  | .dollar => some "$"
  | .ellipsis => some "..."
  | .atSign => some "@"
  | .eq => some "="
  | .plusEq => some "+="
  | .minusEq => some "-="
  | .starEq => some "*="
  | .slashEq => some "/="
  | .dotEq => some ".="
  | .percentEq => some "%="
  | .starStarEq => some "**="
  | .ampEq => some "&="
  | .pipeEq => some "|="
  | .caretEq => some "^="
  | .shlEq => some "<<="
  | .shrEq => some ">>="
  | .questionQuestionEq => some "??="
  | .eqEq => some "=="
  | .eqEqEq => some "==="
  | .bangEq => some "!="
  | .bangEqEq => some "!=="
  | .lt => some "<"
  | .ltEq => some "<="
  | .gt => some ">"
  | .gtEq => some ">="
  | .spaceship => some "<=>"
  | .plus => some "+"
  | .minus => some "-"
  | .star => some "*"
  | .slash => some "/"
  | .percent => some "%"
  | .starStar => some "**"
  | .dot => some "."
  | .plusPlus => some "++"
  | .minusMinus => some "--"
  | .amp => some "&"
  | .pipe => some "|"
  | .caret => some "^"
  | .tilde => some "~"
  | .shl => some "<<"
  | .shr => some ">>"
  | .ampAmp => some "&&"
  | .pipePipe => some "||"
  | .bang => some "!"
  | .openTag => some "<?php"
  | .openTagWithEcho => some "<?="
  | .closeTag => some "?>"
  | .abstractKw => some "abstract"
  | .andKw => some "and"
  | .arrayKw => some "array"
  | .asKw => some "as"
  | .breakKw => some "break"
  | .caseKw => some "case"
  | .catchKw => some "catch"
  | .classKw => some "class"
  | .cloneKw => some "clone"
  | .constKw => some "const"
  | .continueKw => some "continue"
  | .declareKw => some "declare"
  | .defaultKw => some "default"
  | .doKw => some "do"
  | .echoKw => some "echo"
  | .elseKw => some "else"
  | .elseifKw => some "elseif"
  | .emptyKw => some "empty"
  | .endforKw => some "endfor"
  | .endforeachKw => some "endforeach"
  | .endifKw => some "endif"
  | .endwhileKw => some "endwhile"
  | .extendsKw => some "extends"
  | .finalKw => some "final"
  | .finallyKw => some "finally"
  | .fnKw => some "fn"
  | .forKw => some "for"
  | .foreachKw => some "foreach"
  | .functionKw => some "function"
  | .globalKw => some "global"
  | .ifKw => some "if"
  | .implementsKw => some "implements"
  | .includeKw => some "include"
  | .includeOnceKw => some "include_once"
  | .instanceofKw => some "instanceof"
  | .interfaceKw => some "interface"
  | .issetKw => some "isset"
  | .listKw => some "list"
  | .matchKw => some "match"
  | .namespaceKw => some "namespace"
  | .newKw => some "new"
  | .orKw => some "or"
  | .printKw => some "print"
  | .privateKw => some "private"
  | .protectedKw => some "protected"
  | .publicKw => some "public"
  | .readonlyKw => some "readonly"
  | .requireKw => some "require"
  | .requireOnceKw => some "require_once"
  | .returnKw => some "return"
  | .staticKw => some "static"
  | .switchKw => some "switch"
  | .throwKw => some "throw"
  | .traitKw => some "trait"
  | .tryKw => some "try"
  | .unsetKw => some "unset"
  | .useKw => some "use"
  | .varKw => some "var"
  | .whileKw => some "while"
  | .xorKw => some "xor"
  | .yieldKw => some "yield"
  | _ => none

/-- How diagnostics name a kind: its spelling in single quotes, else a phrase. -/
def display (k : Kind) : String :=
  match k.spelling? with
  | some s => "'" ++ s ++ "'"
  | none =>
    match k with
    | .inlineHtml => "inline HTML"
    | .variableName => "variable"
    | .name => "name"
    | .intNumber => "integer literal"
    | .floatNumber => "float literal"
    | .string => "string literal"
    | .cast => "cast"
    | .whitespace | .newline => "whitespace"
    | .lineComment | .blockComment | .docComment => "comment"
    | .skipped => "unrecognized input"
    | .missing => "missing token"
    | .eof => "end of file"
    | _ => "syntax node"

/-- The kind with a given label. -/
def ofLabel? (s : String) : Option Kind := all.find? (·.label == s)

/-- The reserved words, in the order in which a word is compared with them. -/
def keywords : List (String × Kind) :=
  [("abstract", .abstractKw), ("and", .andKw), ("array", .arrayKw), ("as", .asKw),
   ("break", .breakKw), ("case", .caseKw), ("catch", .catchKw), ("class", .classKw),
   ("clone", .cloneKw), ("const", .constKw), ("continue", .continueKw), ("declare", .declareKw),
   ("default", .defaultKw), ("do", .doKw), ("echo", .echoKw), ("else", .elseKw),
   ("elseif", .elseifKw), ("empty", .emptyKw), ("endfor", .endforKw),
   ("endforeach", .endforeachKw), ("endif", .endifKw), ("endwhile", .endwhileKw),
   ("extends", .extendsKw), ("final", .finalKw), ("finally", .finallyKw), ("fn", .fnKw),
   ("for", .forKw), ("foreach", .foreachKw), ("function", .functionKw), ("global", .globalKw),
   ("if", .ifKw), ("implements", .implementsKw), ("include", .includeKw),
   ("include_once", .includeOnceKw), ("instanceof", .instanceofKw), ("interface", .interfaceKw),
   ("isset", .issetKw), ("list", .listKw), ("match", .matchKw), ("namespace", .namespaceKw),
   ("new", .newKw), ("or", .orKw), ("print", .printKw), ("private", .privateKw),
   ("protected", .protectedKw), ("public", .publicKw), ("readonly", .readonlyKw),
   ("require", .requireKw), ("require_once", .requireOnceKw), ("return", .returnKw),
   ("static", .staticKw), ("switch", .switchKw), ("throw", .throwKw), ("trait", .traitKw),
   ("try", .tryKw), ("unset", .unsetKw), ("use", .useKw), ("var", .varKw), ("while", .whileKw),
   ("xor", .xorKw), ("yield", .yieldKw)]

/-- The keyword that a word spells; the case of ASCII letters does not matter. A word of more than
16 bytes is compared with none. -/
def keyword? (word : List Char) : Option Kind :=
  if Text.width word ≤ 16 then keywords.lookup (String.ofList (word.map Char.toLower)) else none

theorem mem_keywords {word : List Char} {k : Kind} (h : keyword? word = some k) :
    (String.ofList (word.map Char.toLower), k) ∈ keywords := by
  rw [keyword?, Option.ite_none_right_eq_some] at h
  obtain ⟨before, after, hs, -⟩ := List.lookup_eq_some_iff.mp h.2
  rw [hs]
  simp

end PhpSyntax.Kind
