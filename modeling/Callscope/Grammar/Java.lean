import Callscope.Grammar.Basic

/-!
# The grammar of Java

The right-hand side of every rule. The order of alternatives matters: where a text can be read in
several ways the first alternative is taken. Expressions and guarded patterns are given by their
plain forms followed by a loop of operators, each with the level at which it binds.
-/

namespace Callscope

namespace Java

open Item

/-- The right-hand side of a rule. -/
def body : Rule → List Item
  | .compilationUnit =>
    [choice [[opt [ref .packageDeclaration], many [ref .importDeclaration],
            many [ref .typeDeclaration]], [ref .moduleDeclaration, tok .eof]]]
  | .packageDeclaration =>
    [many [ref .annotationUse], tok .kwPackage, ref .qualifiedName, tok .semi]
  | .importDeclaration =>
    [tok .kwImport, opt [tok .kwStatic], ref .qualifiedName, opt [tok .dot, tok .mul], tok .semi]
  | .typeDeclaration =>
    [choice [[many [ref .classOrInterfaceModifier],
            choice [[ref .classDeclaration], [ref .enumDeclaration], [ref .interfaceDeclaration],
                [ref .annotationTypeDeclaration], [ref .recordDeclaration]]], [tok .semi]]]
  | .modifier =>
    [choice [[ref .classOrInterfaceModifier], [tok .kwNative], [tok .kwSynchronized],
          [tok .kwTransient], [tok .kwVolatile]]]
  | .classOrInterfaceModifier =>
    [choice [[ref .annotationUse], [tok .kwPublic], [tok .kwProtected], [tok .kwPrivate],
          [tok .kwStatic], [tok .kwAbstract], [tok .kwFinal], [tok .kwStrictfp], [tok .kwSealed],
          [tok .kwNonSealed]]]
  | .variableModifier => [choice [[tok .kwFinal], [ref .annotationUse]]]
  | .classDeclaration =>
    [tok .kwClass, ref .identifier, opt [ref .typeParameters],
      opt [tok .kwExtends, ref .typeType], opt [tok .kwImplements, ref .typeList],
      opt [tok .kwPermits, ref .typeList], ref .classBody]
  | .typeParameters =>
    [tok .lt, ref .typeParameter, many [tok .comma, ref .typeParameter], tok .gt]
  | .typeParameter =>
    [many [ref .annotationUse], ref .identifier,
      opt [tok .kwExtends, many [ref .annotationUse], ref .typeBound]]
  | .typeBound => [ref .typeType, many [tok .bitAnd, ref .typeType]]
  | .enumDeclaration =>
    [tok .kwEnum, ref .identifier, opt [tok .kwImplements, ref .typeList], tok .lbrace,
      opt [ref .enumConstants], opt [tok .comma], opt [ref .enumBodyDeclarations], tok .rbrace]
  | .enumConstants => [ref .enumConstant, many [tok .comma, ref .enumConstant]]
  | .enumConstant =>
    [many [ref .annotationUse], ref .identifier, opt [ref .arguments], opt [ref .classBody]]
  | .enumBodyDeclarations => [tok .semi, many [ref .classBodyDeclaration]]
  | .interfaceDeclaration =>
    [tok .kwInterface, ref .identifier, opt [ref .typeParameters],
      opt [tok .kwExtends, ref .typeList], opt [tok .kwPermits, ref .typeList],
      ref .interfaceBody]
  | .classBody => [tok .lbrace, many [ref .classBodyDeclaration], tok .rbrace]
  | .interfaceBody => [tok .lbrace, many [ref .interfaceBodyDeclaration], tok .rbrace]
  | .classBodyDeclaration =>
    [choice [[tok .semi], [opt [tok .kwStatic], ref .block],
          [many [ref .modifier], ref .memberDeclaration]]]
  | .memberDeclaration =>
    [choice [[ref .recordDeclaration], [ref .methodDeclaration], [ref .genericMethodDeclaration],
          [ref .fieldDeclaration], [ref .constructorDeclaration],
          [ref .genericConstructorDeclaration], [ref .interfaceDeclaration],
          [ref .annotationTypeDeclaration], [ref .classDeclaration], [ref .enumDeclaration]]]
  | .methodDeclaration =>
    [ref .typeTypeOrVoid, ref .identifier, ref .formalParameters, many [tok .lbrack, tok .rbrack],
      opt [tok .kwThrows, ref .qualifiedNameList], ref .methodBody]
  | .methodBody => [choice [[ref .block], [tok .semi]]]
  | .typeTypeOrVoid => [choice [[ref .typeType], [tok .kwVoid]]]
  | .genericMethodDeclaration => [ref .typeParameters, ref .methodDeclaration]
  | .genericConstructorDeclaration => [ref .typeParameters, ref .constructorDeclaration]
  | .constructorDeclaration =>
    [ref .identifier, ref .formalParameters, opt [tok .kwThrows, ref .qualifiedNameList],
      (ref .block).label .constructorBody]
  | .compactConstructorDeclaration =>
    [many [ref .modifier], ref .identifier, (ref .block).label .constructorBody]
  | .fieldDeclaration => [ref .typeType, ref .variableDeclarators, tok .semi]
  | .interfaceBodyDeclaration =>
    [choice [[many [ref .modifier], ref .interfaceMemberDeclaration], [tok .semi]]]
  | .interfaceMemberDeclaration =>
    [choice [[ref .constDeclaration], [ref .interfaceMethodDeclaration],
          [ref .genericInterfaceMethodDeclaration], [ref .interfaceDeclaration],
          [ref .annotationTypeDeclaration], [ref .classDeclaration], [ref .enumDeclaration],
          [ref .recordDeclaration]]]
  | .constDeclaration =>
    [ref .typeType, ref .constantDeclarator, many [tok .comma, ref .constantDeclarator],
      tok .semi]
  | .constantDeclarator =>
    [ref .identifier, many [tok .lbrack, tok .rbrack], tok .assign, ref .variableInitializer]
  | .interfaceMethodDeclaration =>
    [many [ref .interfaceMethodModifier], ref .interfaceCommonBodyDeclaration]
  | .interfaceMethodModifier =>
    [choice [[ref .annotationUse], [tok .kwPublic], [tok .kwAbstract], [tok .kwDefault],
          [tok .kwStatic], [tok .kwStrictfp]]]
  | .genericInterfaceMethodDeclaration =>
    [many [ref .interfaceMethodModifier], ref .typeParameters,
      ref .interfaceCommonBodyDeclaration]
  | .interfaceCommonBodyDeclaration =>
    [many [ref .annotationUse], ref .typeTypeOrVoid, ref .identifier, ref .formalParameters,
      many [tok .lbrack, tok .rbrack], opt [tok .kwThrows, ref .qualifiedNameList],
      ref .methodBody]
  | .variableDeclarators => [ref .variableDeclarator, many [tok .comma, ref .variableDeclarator]]
  | .variableDeclarator =>
    [ref .variableDeclaratorId, opt [tok .assign, ref .variableInitializer]]
  | .variableDeclaratorId => [ref .identifier, many [tok .lbrack, tok .rbrack]]
  | .variableInitializer => [choice [[ref .arrayInitializer], [ref .expression]]]
  | .arrayInitializer =>
    [tok .lbrace,
      opt [ref .variableInitializer, many [tok .comma, ref .variableInitializer],
          opt [tok .comma]], tok .rbrace]
  | .classOrInterfaceType =>
    [many [ref .identifier, opt [ref .typeArguments], tok .dot], ref .typeIdentifier,
      opt [ref .typeArguments]]
  | .typeArgument =>
    [choice [[ref .typeType],
          [many [ref .annotationUse], tok .question,
            opt [oneOf [.kwExtends, .kwSuper], ref .typeType]]]]
  | .qualifiedNameList => [ref .qualifiedName, many [tok .comma, ref .qualifiedName]]
  | .formalParameters =>
    [tok .lparen,
      choice [[opt [ref .receiverParameter]],
          [ref .receiverParameter, opt [tok .comma, ref .formalParameterList]],
          [opt [ref .formalParameterList]]], tok .rparen]
  | .receiverParameter => [ref .typeType, many [ref .identifier, tok .dot], tok .kwThis]
  | .formalParameterList =>
    [choice [[ref .formalParameter, many [tok .comma, ref .formalParameter],
            opt [tok .comma, ref .lastFormalParameter]], [ref .lastFormalParameter]]]
  | .formalParameter => [many [ref .variableModifier], ref .typeType, ref .variableDeclaratorId]
  | .lastFormalParameter =>
    [many [ref .variableModifier], ref .typeType, many [ref .annotationUse], tok .ellipsis,
      ref .variableDeclaratorId]
  | .lambdaLVTIList => [ref .lambdaLVTIParameter, many [tok .comma, ref .lambdaLVTIParameter]]
  | .lambdaLVTIParameter => [many [ref .variableModifier], tok .kwVar, ref .identifier]
  | .qualifiedName => [ref .identifier, many [tok .dot, ref .identifier]]
  | .literal =>
    [choice [[ref .integerLiteral], [ref .floatLiteral], [tok .charLiteral], [tok .stringLiteral],
          [tok .boolLiteral], [tok .nullLiteral], [tok .textBlock]]]
  | .integerLiteral => [oneOf [.decimalLiteral, .hexLiteral, .octLiteral, .binaryLiteral]]
  | .floatLiteral => [oneOf [.floatLiteral, .hexFloatLiteral]]
  | .altAnnotationQualifiedName =>
    [many [ref .identifier, tok .dot], tok .atSign, ref .identifier]
  | .annotationUse =>
    [choice [[tok .atSign, ref .qualifiedName], [ref .altAnnotationQualifiedName]],
      opt [tok .lparen, choice [[ref .elementValuePairs], [ref .elementValue], []], tok .rparen]]
  | .elementValuePairs => [ref .elementValuePair, many [tok .comma, ref .elementValuePair]]
  | .elementValuePair => [ref .identifier, tok .assign, ref .elementValue]
  | .elementValue =>
    [choice [[ref .expression], [ref .annotationUse], [ref .elementValueArrayInitializer]]]
  | .elementValueArrayInitializer =>
    [tok .lbrace, opt [ref .elementValue, many [tok .comma, ref .elementValue]], opt [tok .comma],
      tok .rbrace]
  | .annotationTypeDeclaration =>
    [tok .atSign, tok .kwInterface, ref .identifier, ref .annotationTypeBody]
  | .annotationTypeBody =>
    [tok .lbrace, many [ref .annotationTypeElementDeclaration], tok .rbrace]
  | .annotationTypeElementDeclaration =>
    [choice [[many [ref .modifier], ref .annotationTypeElementRest], [tok .semi]]]
  | .annotationTypeElementRest =>
    [choice [[ref .typeType, ref .annotationMethodOrConstantRest, tok .semi],
          [ref .classDeclaration, opt [tok .semi]], [ref .interfaceDeclaration, opt [tok .semi]],
          [ref .enumDeclaration, opt [tok .semi]],
          [ref .annotationTypeDeclaration, opt [tok .semi]],
          [ref .recordDeclaration, opt [tok .semi]]]]
  | .annotationMethodOrConstantRest =>
    [choice [[ref .annotationMethodRest], [ref .annotationConstantRest]]]
  | .annotationMethodRest => [ref .identifier, tok .lparen, tok .rparen, opt [ref .defaultValue]]
  | .annotationConstantRest => [ref .variableDeclarators]
  | .defaultValue => [tok .kwDefault, ref .elementValue]
  | .moduleDeclaration => [opt [tok .kwOpen], tok .kwModule, ref .qualifiedName, ref .moduleBody]
  | .moduleBody => [tok .lbrace, many [ref .moduleDirective], tok .rbrace]
  | .moduleDirective =>
    [choice [[tok .kwRequires, many [ref .requiresModifier], ref .qualifiedName, tok .semi],
          [tok .kwExports, ref .qualifiedName, opt [tok .kwTo, ref .qualifiedName], tok .semi],
          [tok .kwOpens, ref .qualifiedName, opt [tok .kwTo, ref .qualifiedName], tok .semi],
          [tok .kwUses, ref .qualifiedName, tok .semi],
          [tok .kwProvides, ref .qualifiedName, tok .kwWith, ref .qualifiedName, tok .semi]]]
  | .requiresModifier => [oneOf [.kwStatic, .kwTransitive]]
  | .recordDeclaration =>
    [tok .kwRecord, ref .identifier, opt [ref .typeParameters], ref .recordHeader,
      opt [tok .kwImplements, ref .typeList], ref .recordBody]
  | .recordHeader => [tok .lparen, opt [ref .recordComponentList], tok .rparen]
  | .recordComponentList => [ref .recordComponent, many [tok .comma, ref .recordComponent]]
  | .recordComponent => [ref .typeType, ref .identifier]
  | .recordBody =>
    [tok .lbrace,
      many [choice [[ref .classBodyDeclaration], [ref .compactConstructorDeclaration]]],
      tok .rbrace]
  | .block => [tok .lbrace, many [ref .blockStatement], tok .rbrace]
  | .blockStatement =>
    [choice [[ref .localVariableDeclaration, tok .semi], [ref .localTypeDeclaration],
          [ref .statement]]]
  | .localVariableDeclaration =>
    [many [ref .variableModifier],
      choice [[tok .kwVar, ref .identifier, tok .assign, ref .expression],
          [ref .typeType, ref .variableDeclarators]]]
  | .identifier =>
    [oneOf [.kwModule, .kwOpen, .kwRequires, .kwExports, .kwOpens, .kwTo, .kwUses, .kwProvides,
        .kwWith, .kwTransitive, .kwVar, .kwYield, .kwRecord, .kwSealed, .kwPermits, .identifier]]
  | .typeIdentifier =>
    [oneOf [.kwModule, .kwOpen, .kwRequires, .kwExports, .kwOpens, .kwTo, .kwUses, .kwProvides,
        .kwWith, .kwTransitive, .kwRecord, .kwSealed, .kwPermits, .identifier]]
  | .localTypeDeclaration =>
    [many [ref .classOrInterfaceModifier],
      choice [[ref .classDeclaration], [ref .interfaceDeclaration], [ref .recordDeclaration]]]
  | .statement =>
    [choice [[(ref .block).label .blockLabel],
          [tok .kwAssert, ref .expression, opt [tok .colon, ref .expression], tok .semi],
          [tok .kwIf, ref .parExpression, ref .statement, opt [tok .kwElse, ref .statement]],
          [tok .kwFor, tok .lparen, ref .forControl, tok .rparen, ref .statement],
          [tok .kwWhile, ref .parExpression, ref .statement],
          [tok .kwDo, ref .statement, tok .kwWhile, ref .parExpression, tok .semi],
          [tok .kwTry, ref .block,
            choice [[atLeastOne [ref .catchClause], opt [ref .finallyBlock]],
                [ref .finallyBlock]]],
          [tok .kwTry, ref .resourceSpecification, ref .block, many [ref .catchClause],
            opt [ref .finallyBlock]],
          [tok .kwSwitch, ref .parExpression, tok .lbrace, many [ref .switchBlockStatementGroup],
            many [ref .switchLabel], tok .rbrace],
          [tok .kwSynchronized, ref .parExpression, ref .block],
          [tok .kwReturn, opt [ref .expression], tok .semi],
          [tok .kwThrow, ref .expression, tok .semi],
          [tok .kwBreak, opt [ref .identifier], tok .semi],
          [tok .kwContinue, opt [ref .identifier], tok .semi],
          [tok .kwYield, ref .expression, tok .semi], [tok .semi],
          [(ref .expression).label .statementExpression, tok .semi],
          [ref .switchExpression, opt [tok .semi]],
          [(ref .identifier).label .identifierLabel, tok .colon, ref .statement]]]
  | .catchClause =>
    [tok .kwCatch, tok .lparen, many [ref .variableModifier], ref .catchType, ref .identifier,
      tok .rparen, ref .block]
  | .catchType => [ref .qualifiedName, many [tok .bitOr, ref .qualifiedName]]
  | .finallyBlock => [tok .kwFinally, ref .block]
  | .resourceSpecification => [tok .lparen, ref .resources, opt [tok .semi], tok .rparen]
  | .resources => [ref .resource, many [tok .semi, ref .resource]]
  | .resource =>
    [choice [[many [ref .variableModifier],
            choice [[ref .classOrInterfaceType, ref .variableDeclaratorId],
                [tok .kwVar, ref .identifier]], tok .assign, ref .expression], [ref .identifier]]]
  | .switchBlockStatementGroup =>
    [atLeastOne [ref .switchLabel], atLeastOne [ref .blockStatement]]
  | .switchLabel =>
    [choice [[tok .kwCase,
            choice [[(ref .expression).label .constantExpression],
                [(tok .identifier).label .enumConstantName],
                [ref .typeType, (ref .identifier).label .varName]], tok .colon],
          [tok .kwDefault, tok .colon]]]
  | .forControl =>
    [choice [[ref .enhancedForControl],
          [opt [ref .forInit], tok .semi, opt [ref .expression], tok .semi,
            opt [(ref .expressionList).label .forUpdate]]]]
  | .forInit => [choice [[ref .localVariableDeclaration], [ref .expressionList]]]
  | .enhancedForControl =>
    [many [ref .variableModifier], choice [[ref .typeType], [tok .kwVar]],
      ref .variableDeclaratorId, tok .colon, ref .expression]
  | .parExpression => [tok .lparen, ref .expression, tok .rparen]
  | .expressionList => [ref .expression, many [tok .comma, ref .expression]]
  | .methodCall =>
    [choice [[ref .identifier, tok .lparen, opt [ref .expressionList], tok .rparen],
          [tok .kwThis, tok .lparen, opt [ref .expressionList], tok .rparen],
          [tok .kwSuper, tok .lparen, opt [ref .expressionList], tok .rparen]]]
  | .expression =>
    [choice [[ref .primary], [ref .methodCall], [tok .kwNew, ref .creator],
          [tok .lparen, many [ref .annotationUse], ref .typeType,
            many [tok .bitAnd, ref .typeType], tok .rparen, operand .expression 22],
          [(oneOf [.inc, .dec, .add, .sub]).label .prefixSign, operand .expression 20],
          [(oneOf [.bang, .tilde]).label .prefixSign, operand .expression 19],
          [ref .lambdaExpression], [ref .switchExpression],
          [ref .typeType, tok .colonColon,
            choice [[opt [ref .typeArguments], ref .identifier], [tok .kwNew]]],
          [ref .classType, tok .colonColon, opt [ref .typeArguments], tok .kwNew]],
      operators [⟨18, [(oneOf [.mul, .div, .mod]).label .operator, operand .expression 19]⟩,
          ⟨17, [(oneOf [.add, .sub]).label .operator, operand .expression 18]⟩,
          ⟨16, [choice [[tok .lt, tok .lt], [tok .gt, tok .gt, tok .gt], [tok .gt, tok .gt]],
              operand .expression 17]⟩,
          ⟨15, [(oneOf [.gt, .lt, .le, .ge]).label .operator, operand .expression 16]⟩,
          ⟨13, [(oneOf [.equal, .notEqual]).label .operator, operand .expression 14]⟩,
          ⟨12, [(tok .bitAnd).label .operator, operand .expression 13]⟩,
          ⟨11, [(tok .caret).label .operator, operand .expression 12]⟩,
          ⟨10, [(tok .bitOr).label .operator, operand .expression 11]⟩,
          ⟨9, [(tok .andAnd).label .operator, operand .expression 10]⟩,
          ⟨8, [(tok .orOr).label .operator, operand .expression 9]⟩,
          ⟨7, [(tok .question).label .operator, ref .expression, tok .colon,
              operand .expression 7]⟩,
          ⟨6, [(oneOf [.assign, .addAssign, .subAssign, .mulAssign, .divAssign, .andAssign,
                .orAssign, .xorAssign, .modAssign, .lshiftAssign, .rshiftAssign,
                .urshiftAssign]).label .operator, operand .expression 6]⟩,
          ⟨26, [(tok .dot).label .operator,
              choice [[ref .identifier], [ref .methodCall], [tok .kwThis],
                  [tok .kwNew, opt [ref .nonWildcardTypeArguments], ref .innerCreator],
                  [tok .kwSuper, ref .superSuffix], [ref .explicitGenericInvocation]]]⟩,
          ⟨25, [tok .lbrack, ref .expression, tok .rbrack]⟩,
          ⟨21, [(oneOf [.inc, .dec]).label .suffixSign]⟩,
          ⟨14, [(tok .kwInstanceof).label .operator, choice [[ref .typeType], [ref .pattern]]]⟩,
          ⟨3, [tok .colonColon, opt [ref .typeArguments], ref .identifier]⟩]]
  | .pattern =>
    [many [ref .variableModifier], ref .typeType, many [ref .annotationUse], ref .identifier]
  | .lambdaExpression => [ref .lambdaParameters, tok .arrow, ref .lambdaBody]
  | .lambdaParameters =>
    [choice [[ref .identifier], [tok .lparen, opt [ref .formalParameterList], tok .rparen],
          [tok .lparen, ref .identifier, many [tok .comma, ref .identifier], tok .rparen],
          [tok .lparen, opt [ref .lambdaLVTIList], tok .rparen]]]
  | .lambdaBody => [choice [[ref .expression], [ref .block]]]
  | .primary =>
    [choice [[tok .lparen, ref .expression, tok .rparen], [tok .kwThis], [tok .kwSuper],
          [ref .literal], [ref .identifier], [ref .typeTypeOrVoid, tok .dot, tok .kwClass],
          [ref .nonWildcardTypeArguments,
            choice [[ref .explicitGenericInvocationSuffix], [tok .kwThis, ref .arguments]]]]]
  | .switchExpression =>
    [tok .kwSwitch, ref .parExpression, tok .lbrace, many [ref .switchLabeledRule], tok .rbrace]
  | .switchLabeledRule =>
    [choice [[tok .kwCase,
            choice [[ref .expressionList], [tok .nullLiteral], [ref .guardedPattern]],
            oneOf [.colon, .arrow], ref .switchRuleOutcome],
          [tok .kwDefault, oneOf [.colon, .arrow], ref .switchRuleOutcome]]]
  | .guardedPattern =>
    [choice [[tok .lparen, ref .guardedPattern, tok .rparen],
          [many [ref .variableModifier], ref .typeType, many [ref .annotationUse],
            ref .identifier, many [tok .andAnd, ref .expression]]],
      operators [⟨1, [tok .andAnd, ref .expression]⟩]]
  | .switchRuleOutcome => [choice [[ref .block], [many [ref .blockStatement]]]]
  | .classType =>
    [opt [ref .classOrInterfaceType, tok .dot], many [ref .annotationUse], ref .identifier,
      opt [ref .typeArguments]]
  | .creator =>
    [choice [[ref .nonWildcardTypeArguments, ref .createdName, ref .classCreatorRest],
          [ref .createdName, choice [[ref .arrayCreatorRest], [ref .classCreatorRest]]]]]
  | .createdName =>
    [choice [[ref .identifier, opt [ref .typeArgumentsOrDiamond],
            many [tok .dot, ref .identifier, opt [ref .typeArgumentsOrDiamond]]],
          [ref .primitiveType]]]
  | .innerCreator =>
    [ref .identifier, opt [ref .nonWildcardTypeArgumentsOrDiamond], ref .classCreatorRest]
  | .arrayCreatorRest =>
    [tok .lbrack,
      choice [[tok .rbrack, many [tok .lbrack, tok .rbrack], ref .arrayInitializer],
          [ref .expression, tok .rbrack, many [tok .lbrack, ref .expression, tok .rbrack],
            many [tok .lbrack, tok .rbrack]]]]
  | .classCreatorRest => [ref .arguments, opt [ref .classBody]]
  | .explicitGenericInvocation =>
    [ref .nonWildcardTypeArguments, ref .explicitGenericInvocationSuffix]
  | .typeArgumentsOrDiamond => [choice [[tok .lt, tok .gt], [ref .typeArguments]]]
  | .nonWildcardTypeArgumentsOrDiamond =>
    [choice [[tok .lt, tok .gt], [ref .nonWildcardTypeArguments]]]
  | .nonWildcardTypeArguments => [tok .lt, ref .typeList, tok .gt]
  | .typeList => [ref .typeType, many [tok .comma, ref .typeType]]
  | .typeType =>
    [many [ref .annotationUse], choice [[ref .classOrInterfaceType], [ref .primitiveType]],
      many [many [ref .annotationUse], tok .lbrack, tok .rbrack]]
  | .primitiveType =>
    [oneOf [.kwBoolean, .kwByte, .kwChar, .kwDouble, .kwFloat, .kwInt, .kwLong, .kwShort]]
  | .typeArguments => [tok .lt, ref .typeArgument, many [tok .comma, ref .typeArgument], tok .gt]
  | .superSuffix =>
    [choice [[ref .arguments],
          [tok .dot, opt [ref .typeArguments], ref .identifier, opt [ref .arguments]]]]
  | .explicitGenericInvocationSuffix =>
    [choice [[tok .kwSuper, ref .superSuffix], [ref .identifier, ref .arguments]]]
  | .arguments => [tok .lparen, opt [ref .expressionList], tok .rparen]

end Java

end Callscope
